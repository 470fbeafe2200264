import Events.DueRotation
import Events.Lib.Sequential

/-!
# The floor of a window

`floor_to_window_ms` takes the length of a window as an `i64` of milliseconds, which is the length itself
only while it fits. Two things rest on the value: the loop that rotates until the active file is that of
the current window, and the agreement of the two looks at the clock that a rotation by time takes.

* **`TrueFloor`** — flooring to a window is a floor, and the loop ends behind one rotation.
* **`trueFloor_iff`** — so it is for every window whose milliseconds are not `0` modulo `2 ^ 64`.
* **`TestsAgree`** — the look by whole seconds decides as the one by milliseconds does.
* **`testsAgree_iff`** — so it does unless a window begins in the part of the second that is cut off.
-/

namespace Events

open Proc Program

/-! ## The length of a window -/

section Length

variable {window : Duration}

theorem windowMs_eq_zero : windowMs window = 0 ↔ window.asMillis % 2 ^ 64 = 0 := by
  unfold windowMs toI64
  split <;> omega

/-- A cast that wraps makes the length no greater. -/
theorem natAbs_windowMs_le (window : Duration) : (windowMs window).natAbs ≤ window.asMillis := by
  have hmod := Nat.mod_le window.asMillis (2 ^ 64)
  unfold windowMs toI64
  split <;> omega

theorem asMillis_le_asNanos (window : Duration) : window.asMillis * 1000000 ≤ window.asNanos := by
  unfold Duration.asMillis Duration.asNanos
  omega

end Length

/-! ## Flooring -/

section Floor

variable {window : Duration} {nowMs : Int}

/-- From the epoch on the sign of the length does not matter. -/
theorem windowStart_of_nonneg (h : 0 ≤ nowMs) :
    windowStart window nowMs = nowMs / (windowMs window).natAbs * (windowMs window).natAbs := by
  unfold windowStart
  rcases Int.natAbs_eq (windowMs window) with hw | hw
  · rw [← hw, Int.tdiv_eq_ediv_of_nonneg h]
  · have hneg : windowMs window = -((windowMs window).natAbs : Int) := hw
    generalize (windowMs window).natAbs = v at hneg
    rw [hneg, Int.tdiv_neg, Int.neg_mul_neg, Int.tdiv_eq_ediv_of_nonneg h]

theorem windowStart_nonneg (window : Duration) {nowMs : Int} (h : 0 ≤ nowMs) :
    0 ≤ windowStart window nowMs := by
  rw [windowStart_of_nonneg h]
  exact Int.mul_nonneg (Int.ediv_nonneg h (Int.natCast_nonneg _)) (Int.natCast_nonneg _)

theorem windowStart_le (window : Duration) {nowMs : Int} (h : 0 ≤ nowMs) :
    windowStart window nowMs ≤ nowMs := by
  rw [windowStart_of_nonneg h]
  by_cases hw : windowMs window = 0
  · simpa [hw] using h
  · exact Int.ediv_mul_le _ (by omega)

theorem lt_windowStart_add (h : 0 ≤ nowMs) (hw : windowMs window ≠ 0) :
    nowMs < windowStart window nowMs + (windowMs window).natAbs := by
  rw [windowStart_of_nonneg h]
  have hpos : (0 : Int) < (windowMs window).natAbs := by omega
  have hlt := Int.lt_ediv_add_one_mul_self nowMs hpos
  rwa [Int.add_mul, Int.one_mul] at hlt

/-- Only a length of zero makes the division panic. -/
theorem floorToWindowMs_windowStart (hw : windowMs window ≠ 0) (hmin : nowMs ≠ -2 ^ 63) :
    floorToWindowMs nowMs window = some (windowStart window nowMs) := by
  unfold floorToWindowMs
  dsimp only
  rw [if_neg hw, if_neg fun h => hmin h.1]
  rfl

theorem windowMs_ne_zero_of_floor {startMs : Int} (h : floorToWindowMs nowMs window = some startMs) :
    windowMs window ≠ 0 := by
  intro hw
  unfold floorToWindowMs at h
  dsimp only at h
  rw [if_pos hw] at h
  cases h

end Floor

/-! ## Bodies that end -/

/-- No answer keeps the body going for ever. -/
def Ends {α : Type} (p : StoreProgram α) : Prop :=
  p.Yields (fun _ _ => True) fun r => r ≠ .error .diverge

section Ends

variable {α β : Type}

theorem ends_bind {p : StoreProgram α} {f : α → StoreProgram β} (hp : Ends p)
    (hf : ∀ a, Ends (f a)) : Ends (p.bind f) := by
  apply Yields.bind hp
  · exact fun a _ => hf a
  · intro e he heq
    exact he (congrArg Except.error (Except.error.inj heq))

theorem ends_orEs (r : Except EsError α) : Ends (orEs r : StoreProgram α) := by
  cases r <;> exact fun h => by cases h

theorem ends_sql {ref : DbRef} {s : Stmt} : Ends (sql ref s) := fun r _ => ends_orEs r

theorem ends_createPartitionDb {name : Text} {v : Int} : Ends (createPartitionDb name v) := by
  have hbatch : ∀ ref batch, Ends (executeBatch ref batch) := by
    intro ref batch
    induction batch with
    | nil => exact fun h => by cases h
    | cons s batch ih => exact ends_bind ends_sql fun _ => ih
  have hpending : ∀ ref applied ms, Ends (runPendingMigrations ref applied ms) := by
    intro ref applied ms
    induction ms with
    | nil => exact fun h => by cases h
    | cons m ms ih =>
      apply ends_bind ?_ fun _ => ih
      unfold runMigration
      split
      · unfold verifyMigrationChecksum
        split <;> exact fun h => by cases h
      · exact ends_bind (hbatch _ _) fun _ => ends_sql
  have hopen : Ends (openPartitionDb name) :=
    ends_bind (p := buildDatabase _) (fun r _ => ends_orEs r) fun _ => fun r _ => ends_orEs r
  apply ends_bind hopen fun _ => ends_bind (p := connect _) (fun r _ => ends_orEs r) fun _ => ?_
  apply ends_bind ?_ fun _ => ends_sql
  exact ends_bind ends_sql fun _ => ends_bind ends_sql fun _ => hpending _ _ _

theorem determineNewPartitionInfo_ends {rotation : RotationPolicy} {startMs nowMs : Int}
    {ordinal : Option Nat} :
    determineNewPartitionInfo rotation startMs ordinal nowMs ≠ .error .diverge := by
  unfold determineNewPartitionInfo
  repeat' split
  all_goals exact fun h => by cases h

end Ends

/-! ## A rotation by itself -/

/-- A rotation up to its last step. -/
def prepareFile (old new : Text) : StoreProgram Unit := do
  getConnection (.eventFile old)
  let head ← readEventFileAppendHead old
  sealEventFileRange old head
  createPartitionDb new head
  createEventFileRange (rangeOf new head)

theorem rotatePartitionLocked_eq (rotation : RotationPolicy) (nowMs : Int) :
    rotatePartitionLocked rotation nowMs = .call StoreOp.readActive fun
      | none => .done (.error .panic)
      | some active =>
        (ofAbort (determineNewPartitionInfo rotation active.startMs active.ordinal nowMs)).bind fun new =>
          (prepareFile active.name new.1).bind fun _ => setActive ⟨new.1, new.2.1, new.2.2⟩ := by
  unfold rotatePartitionLocked readActive prepareFile
  rw [bind_eq, call_bind]
  congr 1
  funext active
  cases active with
  | none => rfl
  | some active =>
    simp only [bind_eq, bind_assoc, done_ok_bind]
    rfl

/-- The operations that leave what the handle keeps alone. -/
def StoreOp.keepsHandle : StoreOp → Prop
  | .setActive _ => False
  | .openHandle _ _ => False
  | _ => True

theorem all_prepareFile (old new : Text) : (prepareFile old new).All StoreOp.keepsHandle := by
  have hcatalog : ∀ s, All StoreOp.keepsHandle ((getConnection .catalog).bind fun _ => sql .catalog s) :=
    fun s => (all_getConnection trivial).bind fun _ => all_sql trivial
  have hcreate : ∀ head, (createPartitionDb new head).All StoreOp.keepsHandle := by
    intro head
    apply All.bind (all_openPartitionDb trivial trivial) fun _ => ?_
    apply All.bind (all_connect trivial) fun _ => All.bind ?_ fun _ => all_sql trivial
    exact all_runMigrations trivial trivial (fun _ => trivial) fun _ _ => trivial
  apply All.bind (all_getConnection trivial) fun _ => ?_
  apply All.bind (all_readEventFileAppendHead trivial) fun head => ?_
  exact (hcatalog _).bind fun _ => (hcreate head).bind fun _ => hcatalog _

theorem ends_prepareFile (old new : Text) : Ends (prepareFile old new) := by
  have hcatalog : ∀ s, Ends ((getConnection .catalog).bind fun _ => sql .catalog s) :=
    fun s => ends_bind (p := getConnection _) (fun r _ => ends_orEs r) fun _ => ends_sql
  apply ends_bind (p := getConnection _) (fun r _ => ends_orEs r) fun _ => ?_
  apply ends_bind (ends_bind ends_sql fun row => ends_orEs _) fun head => ?_
  exact ends_bind (hcatalog _) fun _ => ends_bind ends_createPartitionDb fun _ => hcatalog _

/-- The partitions that were made active. -/
def rotationNote : StoreOp → StoreEnv → List ActivePartition → List ActivePartition
  | .setActive a, _, rotations => rotations ++ [a]
  | _, _, rotations => rotations

/-- The calls of one client, one after the other. -/
abbrev undisturbed [SerdeJson] : Machine (locked LockNote StoreI) := solo (eventStreams Unit) rotationNote

/-- What a rotation has done: nothing to the handle, or it has made the file of its time active. -/
structure RotationEnd (policy : RotationPolicy) (nowMs : Int) (w : World Unit)
    (rotations : List ActivePartition) (r : Except Abort Unit)
    (s : World Unit × List ActivePartition) : Prop where
  failed : ∀ e, r = .error e → e ≠ .diverge ∧ s.2 = rotations
  turned : ∀ u, r = .ok u → ∃ p a new, w.handles () = some (p, a) ∧
    determineNewPartitionInfo policy a.startMs a.ordinal nowMs =
      .ok (new.name, new.startMs, new.ordinal) ∧
    s.1.handles () = some (p, new) ∧ s.2 = rotations ++ [new]

section Runs

variable [SerdeJson] {C : Contract (solo (eventStreams Unit) rotationNote)} {policy : RotationPolicy}
    {nowMs : Int} {w : World Unit}
  {rotations : List ActivePartition}

theorem wp_prepareFile (hG : ∀ cmd s s', C.guarantee cmd s s') (old new : Text) :
    wp C (prepareFile old new).lift (fun r s => (s.1.handles = w.handles ∧ r ≠ .error .diverge) ∧
      rotations = s.2) (w, rotations) := by
  have hbody : wp (anything ()) (prepareFile old new)
      (fun r w' => w'.handles = w.handles ∧ r ≠ .error .diverge) w := by
    refine wp_yields ?_ (ends_prepareFile old new) fun _ _ _ _ => trivial
    refine wp_of_all (all_prepareFile old new) ?_ fun o ho e w' _ hw' => ⟨trivial, ?_⟩
    · show w.handles = w.handles
      rfl
    · apply Eq.trans (step_handles _ _) hw'
      · exact fun a h => by subst h; exact ho
      · exact fun p a h => by subst h; exact ho
  refine wp_solo_lift (S := eventStreams Unit) (C := C) (K := Eq) (all_prepareFile old new)
    (fun _ => rfl) (fun _ _ _ h h' => h.trans h')
    (fun o ho e s γ _ => ?_) hbody
  refine ⟨trivial, ?_, fun _ => hG _ _ _⟩
  cases o <;> first | rfl | exact ho.elim

/-- **A rotation that nobody disturbs.** -/
theorem wp_rotatePartition_undisturbed (hG : ∀ cmd s s', C.guarantee cmd s s') :
    wp C (rotatePartition policy nowMs) (RotationEnd policy nowMs w rotations) (w, rotations) := by
  have hfail : ∀ {e : Abort} {w'}, e ≠ .diverge →
      RotationEnd policy nowMs w rotations (.error e) (w', rotations) :=
    fun he => ⟨fun e' h => by cases h; exact ⟨he, rfl⟩, fun u h => by cases h⟩
  apply wp_solo_withWrite (hG _ _ _) fun _ => hG _ _ _
  rw [rotatePartitionLocked_eq]
  intro e _
  refine ⟨hG _ _ _, ?_⟩
  have hread : undisturbed.step (.op .readActive) e (w, rotations) =
    ((w.handles ()).map Prod.snd, (w, rotations)) := rfl
  rw [hread]
  cases ha : w.handles () with
  | none => exact hfail fun h => by cases h
  | some pa =>
    obtain ⟨p, a⟩ := pa
    show wp C (lift ((ofAbort (determineNewPartitionInfo policy a.startMs a.ordinal nowMs)).bind _)) _ _
    cases hnew : determineNewPartitionInfo policy a.startMs a.ordinal nowMs with
    | error err => exact hfail fun h => determineNewPartitionInfo_ends (by rw [hnew, h])
    | ok new =>
      show wp C (lift ((prepareFile a.name new.1).bind fun _ => _)) _ _
      rw [lift_bind]
      apply wp_bind_of (wp_prepareFile hG a.name new.1)
      · rintro _ ⟨w', _⟩ ⟨⟨hhandles, -⟩, rfl⟩ e _
        refine ⟨hG _ _ _, ?_⟩
        have hhandle : w'.handles () = some (p, a) := by
          rw [show w'.handles = w.handles from hhandles, ha]
        show RotationEnd policy nowMs w rotations (.ok ()) _
        refine ⟨fun e' h => (by cases h), fun u _ => ?_⟩
        refine ⟨p, a, ⟨new.1, new.2.1, new.2.2⟩, ha, hnew, ?_, rfl⟩
        simp [World.step, hhandle]
      · rintro err ⟨w', _⟩ ⟨⟨-, hends⟩, rfl⟩
        exact hfail fun h => hends (by rw [h])

/-- The test of the loop, which leaves everything as it is. -/
theorem wp_inCurrentWindow_undisturbed (hG : ∀ cmd s s', C.guarantee cmd s s') :
    wp C (withRead (inCurrentWindow policy nowMs)) (fun r s => s = (w, rotations) ∧
      r ≠ .error .diverge ∧ ∀ p a, w.handles () = some (p, a) →
        floorToWindowMs nowMs policy.window = some a.startMs → r = .ok true) (w, rotations) := by
  apply wp_solo_withRead fun s => ⟨hG _ s s, hG _ s s⟩
  rw [inCurrentWindow_eq]
  generalize floorToWindowMs nowMs policy.window = floored
  intro e _
  refine ⟨hG _ _ _, ?_⟩
  have hread : (solo (eventStreams Unit) rotationNote).step (.op .readActive) e (w, rotations) =
    ((w.handles ()).map Prod.snd, (w, rotations)) := rfl
  rw [hread]
  cases ha : w.handles () with
  | none => exact ⟨rfl, fun h => (by cases h), fun p a h => by cases h⟩
  | some pa =>
    cases floored with
    | none => exact ⟨rfl, fun h => (by cases h), fun p a _ h => by cases h⟩
    | some startMs =>
      refine ⟨rfl, fun h => (by cases h), fun p a h hstart => ?_⟩
      obtain rfl : pa = (p, a) := Option.some.inj h
      obtain rfl : startMs = a.startMs := Option.some.inj hstart
      show (.ok (decide (a.startMs = a.startMs)) : Except Abort Bool) = .ok true
      simp

/-- A pass that finds the file of its time active is the last one. -/
theorem wp_lastPass (hG : ∀ cmd s s', C.guarantee cmd s s') (fuel : Nat) {p : RotationPolicy}
    {a : ActivePartition} (ha : w.handles () = some (p, a))
    (hstart : floorToWindowMs nowMs policy.window = some a.startMs) :
    wp C (rotateUntilCurrentWindow policy nowMs (fuel + 1))
      (fun r s => s.2 = rotations ∧ r ≠ .error .diverge) (w, rotations) := by
  unfold rotateUntilCurrentWindow
  rw [bind_eq]
  apply wp_bind_of (wp_inCurrentWindow_undisturbed hG)
  · intro current s hs
    obtain rfl : current = true := Except.ok.inj (hs.2.2 p a ha hstart)
    exact ⟨by rw [hs.1], fun h => by cases h⟩
  · exact fun e s hs => ⟨by rw [hs.1], fun h => hs.2.1 (by rw [Except.error.inj h])⟩

/-- **The loop rotates at most once**, and two passes are enough for it. -/
theorem wp_rotateUntilCurrentWindow_undisturbed (hG : ∀ cmd s s', C.guarantee cmd s s') (fuel : Nat) :
    wp C (rotateUntilCurrentWindow policy nowMs fuel) (fun r s =>
      s.2.length ≤ rotations.length + 1 ∧ (2 ≤ fuel → r ≠ .error .diverge)) (w, rotations) := by
  cases fuel with
  | zero => exact ⟨Nat.le_succ _, fun h => absurd h (by decide)⟩
  | succ fuel =>
    unfold rotateUntilCurrentWindow
    rw [bind_eq]
    apply wp_bind_of (wp_inCurrentWindow_undisturbed hG)
    · rintro current s ⟨rfl, -, -⟩
      cases current with
      | true => exact ⟨Nat.le_succ _, fun _ h => by cases h⟩
      | false =>
        show wp C ((rotatePartition policy nowMs).bind fun _ => _) _ _
        apply wp_bind_of (wp_rotatePartition_undisturbed hG)
        · rintro u ⟨w', rotations'⟩ hend
          obtain ⟨p, a, new, -, hnew, hnow, hrotations⟩ := hend.turned u rfl
          have hlength : rotations'.length = rotations.length + 1 := by
            rw [show rotations' = rotations ++ [new] from hrotations, List.length_append]
            rfl
          -- the second pass finds the window it asks for
          cases fuel with
          | zero => exact ⟨hlength.le, fun h => absurd h (by decide)⟩
          | succ fuel =>
            apply wp_mono (wp_lastPass hG fuel hnow (determineNewPartitionInfo_startMs hnew))
            intro r s hs
            exact ⟨by rw [hs.1, hlength], fun _ => hs.2⟩
        · intro e s hend
          obtain ⟨he, hrotations⟩ := hend.failed e rfl
          exact ⟨by rw [hrotations]; exact Nat.le_succ _, fun _ h => he (Except.error.inj h)⟩
    · rintro e s ⟨rfl, he, -⟩
      exact ⟨Nat.le_succ _, fun _ h => he (by rw [Except.error.inj h])⟩

end Runs

/-! ## A true floor -/

/-- Whatever the environment does to a call. -/
def anyCall [SerdeJson] : Contract (solo (eventStreams Unit) rotationNote) where
  assume _ _ _ := True
  guarantee _ _ _ := True

/-- Flooring to the window does not panic, and gives the greatest start of a window that is not after
the time; so the loop that rotates until the active file is that of the time rotates at most once. -/
structure TrueFloor [SerdeJson] (window : Duration) : Prop where
  floors : ∀ nowMs : Int, 0 ≤ nowMs → nowMs < 2 ^ 63 → ∃ startMs,
    floorToWindowMs nowMs window = some startMs ∧ 0 ≤ startMs ∧ startMs ≤ nowMs ∧
    nowMs * 1000000 < startMs * 1000000 + window.asNanos ∧
    floorToWindowMs startMs window = some startMs
  mono : ∀ nowMs nowMs' startMs startMs' : Int, 0 ≤ nowMs → nowMs ≤ nowMs' → nowMs' < 2 ^ 63 →
    floorToWindowMs nowMs window = some startMs → floorToWindowMs nowMs' window = some startMs' →
    startMs ≤ startMs'
  once : ∀ policy : RotationPolicy, policy.window = window → ∀ nowMs : Int, 0 ≤ nowMs →
    nowMs < 2 ^ 63 → ∀ fuel w rotations r s,
    Runs anyCall (rotateUntilCurrentWindow policy nowMs fuel) (w, rotations) r s →
    s.2.length ≤ rotations.length + 1 ∧ (2 ≤ fuel → r ≠ .error .diverge)

/-- **Flooring is a true floor** for a window if and only if its milliseconds, cast to 64 bits, are not
zero. -/
theorem trueFloor_iff [SerdeJson] (window : Duration) : TrueFloor window ↔ window.asMillis % 2 ^ 64 ≠ 0 := by
  rw [Ne, ← windowMs_eq_zero]
  constructor
  · intro h
    obtain ⟨startMs, hfloor, -⟩ := h.floors 0 (by decide) (by decide)
    exact windowMs_ne_zero_of_floor hfloor
  · intro hw
    refine { floors := ?_, mono := ?_, once := ?_ }
    · intro nowMs h₀ h₁
      have hnonneg := windowStart_nonneg window h₀
      have hle := windowStart_le window h₀
      have hlt := lt_windowStart_add h₀ hw
      refine ⟨windowStart window nowMs, floorToWindowMs_windowStart hw (by omega), hnonneg, hle, ?_, ?_⟩
      · -- the cast makes the window no longer
        have hcast := natAbs_windowMs_le window
        have hexact := asMillis_le_asNanos window
        omega
      · rw [floorToWindowMs_windowStart hw (by omega), windowStart_windowStart]
    · intro nowMs nowMs' startMs startMs' _ hle _ hstart hstart'
      rw [floorToWindowMs_some hstart, floorToWindowMs_some hstart']
      exact windowStart_mono hle
    · rintro policy - nowMs - - fuel w rotations r s hruns
      exact hruns.post (wp_rotateUntilCurrentWindow_undisturbed (fun _ _ _ => trivial) fuel)

/-- Half a millisecond. -/
def halfMillisecond : Duration := ⟨0, 500000, by decide, by decide⟩

section HalfMillisecond

attribute [local instance] SerdeJson.limited

/-- A window below one millisecond makes every flooring panic. -/
theorem not_trueFloor_halfMillisecond : ¬TrueFloor halfMillisecond := by
  intro h
  obtain ⟨startMs, hfloor, -⟩ := h.floors 0 (by decide) (by decide)
  exact windowMs_ne_zero_of_floor hfloor (windowMs_eq_zero.2 (by decide))

end HalfMillisecond

/-! ## Two looks at one clock -/

/-- A window begins, or ends before the epoch, in the part of the second of `t` that a look by whole
seconds cuts off. -/
def CutsOffBoundary (window : Duration) (t : OffsetDateTime) : Prop :=
  ∃ boundary, windowMs window ∣ boundary ∧
    ((0 < boundary ∧ t.unixTimestamp * 1000 < boundary ∧ boundary ≤ t.unixTimestampMs) ∨
      (boundary < 0 ∧ t.unixTimestamp * 1000 ≤ boundary ∧ boundary < t.unixTimestampMs))

section Boundary

variable {window : Duration} {t : OffsetDateTime} {nowMs nowMs' boundary : Int}

theorem windowStart_neg : windowStart window (-nowMs) = -windowStart window nowMs := by
  unfold windowStart
  rw [Int.neg_tdiv, Int.neg_mul]

theorem windowStart_of_dvd (h : windowMs window ∣ boundary) : windowStart window boundary = boundary :=
  Int.tdiv_mul_cancel h

theorem windowMs_dvd_windowStart : windowMs window ∣ windowStart window nowMs := Int.dvd_mul_left ..

theorem windowStart_nonpos (window : Duration) {nowMs : Int} (h : nowMs ≤ 0) :
    windowStart window nowMs ≤ 0 := by
  have := @windowStart_nonneg window (-nowMs) (by omega)
  rw [windowStart_neg] at this
  omega

theorem le_windowStart (window : Duration) {nowMs : Int} (h : nowMs ≤ 0) :
    nowMs ≤ windowStart window nowMs := by
  have := @windowStart_le window (-nowMs) (by omega)
  rw [windowStart_neg] at this
  omega

/-- Two times belong to different windows when there is a boundary between them. -/
theorem windowStart_ne_iff (hle : nowMs ≤ nowMs') :
    windowStart window nowMs ≠ windowStart window nowMs' ↔ ∃ boundary, windowMs window ∣ boundary ∧
      ((0 < boundary ∧ nowMs < boundary ∧ boundary ≤ nowMs') ∨
        (boundary < 0 ∧ nowMs ≤ boundary ∧ boundary < nowMs')) := by
  have hmono := @windowStart_mono window _ _ hle
  constructor
  · intro hne
    have hlt : windowStart window nowMs < windowStart window nowMs' := lt_of_le_of_ne hmono hne
    by_cases hpos : 0 < windowStart window nowMs'
    · -- the later window begins between the two
      have hnow' : 0 ≤ nowMs' := by
        by_contra hneg
        have := @windowStart_nonpos window nowMs' (by omega)
        omega
      refine ⟨_, windowMs_dvd_windowStart, .inl ⟨hpos, ?_, windowStart_le window hnow'⟩⟩
      by_contra hge
      have := @windowStart_mono window _ _ (show windowStart window nowMs' ≤ nowMs by omega)
      rw [windowStart_windowStart] at this
      omega
    · -- the earlier window ends between the two
      have hnow : nowMs ≤ 0 := by
        by_contra hge
        have := @windowStart_nonneg window nowMs (by omega)
        omega
      refine ⟨_, windowMs_dvd_windowStart, .inr ⟨by omega, le_windowStart window hnow, ?_⟩⟩
      by_contra hge
      have := @windowStart_mono window _ _ (show nowMs' ≤ windowStart window nowMs by omega)
      rw [windowStart_windowStart] at this
      omega
  · rintro ⟨boundary, hdvd, ⟨hpos, hlt, hle'⟩ | ⟨hneg, hle', hlt⟩⟩
    · -- a boundary after the epoch is the start of a window, so the later time is in one from there on
      have hlater : boundary ≤ windowStart window nowMs' := by
        rw [← windowStart_of_dvd hdvd]
        exact windowStart_mono hle'
      rcases Int.le_total 0 nowMs with h | h
      · have := windowStart_le window h
        omega
      · have := windowStart_nonpos window h
        omega
    · -- a boundary before the epoch is where a window ends
      have hearlier : windowStart window nowMs ≤ boundary := by
        rw [← windowStart_of_dvd hdvd]
        exact windowStart_mono hle'
      rcases Int.le_total 0 nowMs' with h | h
      · have := windowStart_nonneg window h
        omega
      · have := le_windowStart window h
        omega

/-- The look by whole seconds is not after the other one. -/
theorem unixTimestamp_le_ms : t.unixTimestamp * 1000 ≤ t.unixTimestampMs := by
  unfold OffsetDateTime.unixTimestamp OffsetDateTime.unixTimestampMs
  generalize t.unixTimestampNanos = n
  rcases Int.le_total 0 n with h | h
  · rw [Int.tdiv_eq_ediv_of_nonneg h]
    omega
  · have hneg : Int.tdiv n 1000000 = -(-n / 1000000) := by
      rw [← Int.tdiv_eq_ediv_of_nonneg (by omega), Int.neg_tdiv, Int.neg_neg]
    rw [hneg]
    omega

theorem unixTimestamp_bounds (t : OffsetDateTime) :
    -377705116800 ≤ t.unixTimestamp ∧ t.unixTimestamp < 253402300800 := by
  have hlower := t.lower
  have hupper := t.upper
  simp only [minNanos, supNanos] at hlower hupper
  unfold OffsetDateTime.unixTimestamp
  omega

theorem sameWindow_iff : SameWindow window t ↔ ¬CutsOffBoundary window t := by
  have hms := t.unixTimestampMs_bounds
  have hsecs := unixTimestamp_bounds t
  unfold SameWindow CutsOffBoundary
  rw [← windowStart_ne_iff unixTimestamp_le_ms, not_not]
  by_cases hw : windowMs window = 0
  · unfold floorToWindowMs windowStart
    simp only [hw, if_true, Int.mul_zero]
  · rw [floorToWindowMs_windowStart hw (by omega), floorToWindowMs_windowStart hw (by omega)]
    exact Option.some_inj

end Boundary

/-! ## The tests agree -/

/-- A start that a rotation gives to the partition it makes active. -/
def StartsRotation (window : Duration) (startMs : Int) : Prop :=
  ∃ t : OffsetDateTime, floorToWindowMs t.unixTimestampMs window = some startMs

/-- The clock stands still, and no file reaches the limit of its size. -/
def clockAt [SerdeJson] (policy : RotationPolicy) (t : OffsetDateTime) :
    Contract (solo (eventStreams Unit) rotationNote) where
  assume
    | .op .now, e, _ => e.now = t
    | .op (.fileSize _), e, _ => shouldRotateBySize policy e.size = false
    | _, _, _ => True
  guarantee _ _ _ := True

/-- The test of `should_rotate` fires when the window of the clock is another one than that of the active
partition; a rotation by time then begins a window and takes no ordinal in one. -/
structure TestsAgree [SerdeJson] (window : Duration) (t : OffsetDateTime) : Prop where
  fires : ∀ startMs, StartsRotation window startMs → ∀ size,
    shouldRotate (.timeWindow window none) size startMs t = some true ↔
      floorToWindowMs t.unixTimestampMs window ≠ some startMs
  beginsWindow : ∀ policy : RotationPolicy, policy.window = window → ∀ (w : World Unit) p a,
    w.handles () = some (p, a) → StartsRotation window a.startMs → ∀ r s,
    Runs (clockAt policy t) (maybeRotate policy) (w, []) r s → ∀ new ∈ s.2, new.ordinal = none

section Agree

variable {window : Duration} {policy : RotationPolicy} {t : OffsetDateTime} {startMs : Int}
  {w : World Unit} {p : RotationPolicy} {a : ActivePartition}

theorem determineNewPartitionInfo_ordinal {rotation : RotationPolicy} {startMs nowMs : Int}
    {ordinal : Option Nat} {new : Text × Int × Option Nat}
    (hnew : determineNewPartitionInfo rotation startMs ordinal nowMs = .ok new)
    (hother : floorToWindowMs nowMs rotation.window ≠ some startMs) : new.2.2 = none := by
  have hstart := determineNewPartitionInfo_startMs hnew
  have hne : new.2.1 ≠ startMs := fun h => hother (by rw [hstart, h])
  unfold determineNewPartitionInfo at hnew
  simp only [hstart, if_neg hne] at hnew
  split at hnew
  · exact (congrArg (fun n => n.2.2) (Except.ok.inj hnew)).symm
  · cases hnew

/-- What the test reads off the clock when the file is small. -/
theorem shouldRotate_small {size : Nat} (hsize : shouldRotateBySize policy size = false) :
    shouldRotate policy size startMs t =
      (floorToWindowMs (t.unixTimestamp * 1000) policy.window).map fun s => decide (s ≠ startMs) := by
  unfold shouldRotate
  rw [hsize]
  congr 1

/-- The decision, under the read lock. -/
theorem wp_rotationDue_clockAt [SerdeJson] (hsame : SameWindow policy.window t)
    (ha : w.handles () = some (p, a)) :
    wp (clockAt policy t) (withRead (rotationDue policy)) (fun r s => s = (w, []) ∧
      ∀ nowMs, r = .ok (some nowMs) → nowMs = t.unixTimestampMs ∧
        floorToWindowMs nowMs policy.window ≠ some a.startMs) (w, []) := by
  apply wp_solo_withRead fun s => ⟨trivial, trivial⟩
  rw [rotationDue_eq]
  intro e _
  refine ⟨trivial, ?_⟩
  have hread : (solo (eventStreams Unit) rotationNote).step (.op .readActive) e (w, []) =
    ((w.handles ()).map Prod.snd, (w, [])) := rfl
  rw [hread, ha]
  intro e hsize
  refine ⟨trivial, fun e' ht => ⟨trivial, ?_⟩⟩
  obtain rfl : e'.now = t := ht
  show wp _ (rotationTime (shouldRotate policy e.size a.startMs e'.now)).lift _ _
  rw [shouldRotate_small hsize, hsame]
  cases hfloor : floorToWindowMs e'.now.unixTimestampMs policy.window with
  | none => exact ⟨rfl, fun nowMs h => by cases h⟩
  | some startMs =>
    by_cases hstart : startMs = a.startMs
    · simp only [Option.map_some, hstart, ne_eq, not_true_eq_false, decide_false]
      exact ⟨rfl, fun nowMs h => by cases h⟩
    · simp only [Option.map_some, ne_eq, hstart, not_false_eq_true, decide_true]
      intro e'' ht
      refine ⟨trivial, rfl, fun nowMs h => ?_⟩
      obtain rfl : e''.now.unixTimestampMs = nowMs := Option.some.inj (Except.ok.inj h)
      rw [show e''.now = e'.now from ht, hfloor]
      exact ⟨rfl, fun h => hstart (Option.some.inj h)⟩

/-- A rotation by time begins a window. -/
theorem wp_maybeRotate_clockAt [SerdeJson] (hsame : SameWindow policy.window t)
    (ha : w.handles () = some (p, a)) :
    wp (clockAt policy t) (maybeRotate policy) (fun _ s => ∀ new ∈ s.2, new.ordinal = none) (w, []) := by
  unfold maybeRotate
  rw [bind_eq]
  apply wp_bind_of (wp_rotationDue_clockAt hsame ha)
  · rintro due s ⟨rfl, hdue⟩
    cases due with
    | none => exact fun new h => by cases h
    | some nowMs =>
      obtain ⟨-, hother⟩ := hdue nowMs rfl
      apply wp_mono (wp_rotatePartition_undisturbed fun _ _ _ => trivial)
      intro r s hend new hmem
      cases r with
      | error e =>
        rw [(hend.failed e rfl).2] at hmem
        cases hmem
      | ok u =>
        obtain ⟨p', a', new', ha', hnew, -, hrotations⟩ := hend.turned u rfl
        obtain ⟨rfl, rfl⟩ : p = p' ∧ a = a' := by simpa [ha] using ha'
        obtain rfl : new = new' := by simpa [hrotations] using hmem
        exact determineNewPartitionInfo_ordinal hnew hother
  · rintro e s ⟨rfl, -⟩
    exact fun new h => by cases h

/-- Where the two looks fall into different windows, the test fires on the file of the later one. -/
theorem SameWindow.of_fires (hfires : ∀ startMs, StartsRotation window startMs → ∀ size,
    shouldRotate (.timeWindow window none) size startMs t = some true →
      floorToWindowMs t.unixTimestampMs window ≠ some startMs) : SameWindow window t := by
  by_contra hother
  have hms := t.unixTimestampMs_bounds
  have hsecs := unixTimestamp_bounds t
  have hw : windowMs window ≠ 0 := by
    intro hw
    unfold SameWindow floorToWindowMs at hother
    simp [hw] at hother
  have hfloor := floorToWindowMs_windowStart hw (show t.unixTimestampMs ≠ -2 ^ 63 by omega)
  have hfloor' := floorToWindowMs_windowStart hw (show t.unixTimestamp * 1000 ≠ -2 ^ 63 by omega)
  apply hfires _ ⟨t, hfloor⟩ 0 _ hfloor
  rw [shouldRotate_small rfl]
  show (floorToWindowMs (t.unixTimestamp * 1000) window).map _ = _
  rw [hfloor', Option.map_some]
  unfold SameWindow at hother
  rw [hfloor, hfloor'] at hother
  simpa using hother

/-- **The two tests agree** if and only if no window begins in the part of the second that `should_rotate`
cuts off. -/
theorem testsAgree_iff [SerdeJson] (window : Duration) (t : OffsetDateTime) :
    TestsAgree window t ↔ ¬CutsOffBoundary window t := by
  rw [← sameWindow_iff]
  constructor
  · exact fun h => .of_fires fun startMs hstart size => (h.fires startMs hstart size).1
  · intro hsame
    refine ⟨?_, ?_⟩
    · rintro startMs ⟨t₀, hstart⟩ size
      have hw := windowMs_ne_zero_of_floor hstart
      have hms := t.unixTimestampMs_bounds
      rw [shouldRotate_small rfl]
      show (floorToWindowMs (t.unixTimestamp * 1000) window).map _ = _ ↔ _
      rw [hsame, floorToWindowMs_windowStart hw (by omega)]
      simp
    · rintro policy rfl w p a ha - r s hruns
      exact hruns.post (wp_maybeRotate_clockAt hsame ha)

/-- From the epoch on, the tests agree on a window of whole seconds. -/
theorem not_cutsOffBoundary {k : Int} (hw : windowMs window = 1000 * k) (ht : 0 ≤ t.unixTimestampNanos) :
    ¬CutsOffBoundary window t := by
  have hms : t.unixTimestampMs = t.unixTimestampNanos / 1000000 := Int.tdiv_eq_ediv_of_nonneg ht
  have hsecs : t.unixTimestamp = t.unixTimestampNanos / 1000000000 := rfl
  rintro ⟨boundary, hdvd, hbetween⟩
  -- the boundary is a whole second
  obtain ⟨n, rfl⟩ : (1000 : Int) ∣ boundary := Int.dvd_trans (by rw [hw]; exact Int.dvd_mul_right ..) hdvd
  omega

end Agree

/-- Half a second. -/
def halfSecond : Duration := ⟨0, 500000000, by decide, by decide⟩

/-- Seven tenths of a second after the epoch. -/
def sevenTenths : OffsetDateTime := ⟨700000000, by decide, by decide⟩

attribute [local instance] SerdeJson.limited

/-- At 700 ms the partition of the window that began at 500 ms is active; the look by whole seconds sees
the window before it, and the rotation takes an ordinal in the window that is active already. -/
theorem not_testsAgree_halfSecond : ¬TestsAgree halfSecond sevenTenths ∧
    ∃ name, determineNewPartitionInfo (.timeWindow halfSecond none) 500 none
      sevenTenths.unixTimestampMs = .ok (name, 500, some 1) := by
  have hw : windowMs halfSecond = 500 := by
    simp [windowMs, toI64, Duration.asMillis, halfSecond]
  have hms : sevenTenths.unixTimestampMs = 700 := rfl
  have hfloor : ∀ nowMs : Int, 0 ≤ nowMs →
      floorToWindowMs nowMs halfSecond = some (Int.tdiv nowMs 500 * 500) := by
    intro nowMs h
    rw [floorToWindowMs_windowStart (by rw [hw]; decide) (by omega), windowStart, hw]
  have hstart : floorToWindowMs sevenTenths.unixTimestampMs halfSecond = some 500 := by
    rw [hms, hfloor 700 (by decide)]
    rfl
  refine ⟨fun h => ?_, ?_⟩
  · apply (h.fires 500 ⟨sevenTenths, hstart⟩ 0).1 _ hstart
    rw [shouldRotate_small rfl]
    show (floorToWindowMs 0 halfSecond).map _ = _
    rw [hfloor 0 (by decide)]
    rfl
  · have hname := @generatePartitionName_eq 500 halfSecond (some 1)
      (by decide) (by decide) (by intro o ho; cases ho; decide)
    refine ⟨(partsOf 500 halfSecond (some 1)).text, ?_⟩
    unfold determineNewPartitionInfo
    simp only [RotationPolicy.window, hstart, if_true, getNextOrdinal, hname]

end Events
