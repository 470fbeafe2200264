import Events.ForwardRotations
import Events.Lib.Sequential

/-!
# Sealed files are final

One client, whose calls do not overlap, works on a partition with one policy and a clock that does not go
back. A rotation then goes to the window of the last reading of the clock, which is not an earlier one
than that of the active file, before or after a reopen.

* **`UpToDate`** — between two calls, the newest file belongs to a window that the clock has reached.
* **`soloLawful`** — every call keeps it, and keeps what is sealed.
* **`sealed_files_final`** — the result on runs.
-/

namespace Events

open Proc Program

/-! ## The clock -/

/-- The last reading of the clock. -/
def clockNote : StoreOp → StoreEnv → OffsetDateTime → OffsetDateTime
  | .now, e, _ => e.now
  | _, _, t => t

/-- A later reading, of a window whose names are read back. -/
structure Ticks (policy : RotationPolicy) (t t' : OffsetDateTime) : Prop where
  le : t.unixTimestampNanos ≤ t'.unixTimestampNanos
  round : NamesRoundTrip policy.window t'.unixTimestampMs

/-- What is assumed of the steps of the client, and what they keep. -/
def sealContract [SerdeJson] (policy : RotationPolicy) : Contract (solo (eventStreams Unit) clockNote) where
  assume
    | .op o, e, s => Steady o e ∧ (o = .now → Ticks policy s.2 e.now)
    | _, _, _ => True
  guarantee
    | .op _, s, s' => SealedKept s.1 s'.1
    | .acquireWrite (.rotating rotation nowMs), s, _ => FreshTarget rotation nowMs s.1
    | _, _, _ => True

/-- Between two calls. -/
structure UpToDate (policy : RotationPolicy) (s : World Unit × OffsetDateTime) : Prop where
  placed : Placed s.1
  samePolicy : ∀ p a, s.1.handles () = some (p, a) → p = policy
  round : NamesRoundTrip policy.window s.2.unixTimestampMs
  reached : ∀ init r q, s.1.ranges = init ++ [r] → IsAt r.name q →
    q.1 ≤ windowStart policy.window s.2.unixTimestampMs

section UpToDate

variable {policy : RotationPolicy} {w w' : World Unit} {t t' : OffsetDateTime}

theorem UpToDate.tick (h : UpToDate policy (w, t)) (ht : Ticks policy t t') :
    UpToDate policy (w, t') where
  placed := h.placed
  samePolicy := h.samePolicy
  round := ht.round
  reached := fun init r q hinit hat =>
    (h.reached init r q hinit hat).trans (windowStart_mono (unixTimestampMs_mono ht.le))

/-- A rotation to the window of the clock does not go back. -/
theorem UpToDate.notBehind (h : UpToDate policy (w, t)) : NotBehind policy t.unixTimestampMs w := by
  intro p a startMs ha hfloor
  obtain ⟨init, r, hinit, hname⟩ := h.placed.writesNewest p a ha
  have hat : IsAt r.name (a.startMs, a.ordinal) := by
    rw [hname]
    exact h.placed.named p a ha
  rw [floorToWindowMs_some hfloor]
  exact h.reached init r _ hinit hat

theorem UpToDate.of_same (h : UpToDate policy (w, t)) (hw' : Placed w')
    (hranges : w'.ranges = w.ranges) (hpolicy : ∀ p a, w'.handles () = some (p, a) → p = policy) :
    UpToDate policy (w', t) where
  placed := hw'
  samePolicy := hpolicy
  round := h.round
  reached := by
    show ∀ init r q, w'.ranges = init ++ [r] → _
    rw [hranges]
    exact h.reached

/-- The file of a rotation belongs to the window of the clock. -/
theorem UpToDate.turned (h : UpToDate policy (w, t)) {new : ActivePartition}
    (hturned : Turned policy t.unixTimestampMs new w w') (hw' : Placed w') :
    UpToDate policy (w', t) := by
  obtain ⟨p, a, ha, ha', hnew⟩ := hturned.target
  obtain ⟨init, r, -, hranges⟩ := hturned.ranges
  refine ⟨hw', fun p' a' hp' => ?_, h.round, fun init' r' q hinit' hat => ?_⟩
  · obtain ⟨rfl, -⟩ : p = p' ∧ new = a' := by simpa [ha'] using hp'
    exact h.samePolicy p a ha
  · have hsplit : w'.ranges = init' ++ [r'] := hinit'
    obtain ⟨-, hr⟩ := List.append_inj' (hranges.symm.trans hsplit) rfl
    obtain rfl := List.singleton_inj.1 hr
    obtain rfl := hat.unique (hw'.named p new ha')
    exact (floorToWindowMs_some (determineNewPartitionInfo_startMs hnew)).le

theorem UpToDate.restart (h : UpToDate policy (w, t)) : UpToDate policy (w.restart, t) :=
  h.of_same h.placed.restart rfl fun p a ha => by cases ha

end UpToDate

/-! ## The calls -/

section Calls

variable {policy : RotationPolicy} {w : World Unit} {t : OffsetDateTime} {nowMs : Int}
  {s : World Unit × OffsetDateTime}

theorem sealContract_readLock [SerdeJson] (s : World Unit × OffsetDateTime) :
    (sealContract policy).guarantee .acquireRead s s ∧
      (sealContract policy).guarantee .releaseRead s s := ⟨trivial, trivial⟩

/-- The contract of the bodies under the lock. -/
def sealing : Contract (storeMachine ()) where
  assume o e _ := Steady o e
  guarantee _ := SealedKept

/-- A body that does not read the clock. -/
theorem wp_seal_lift [SerdeJson] {α : Type} {p : StoreProgram α} {R : Except Abort α → World Unit → Prop}
    (hall : p.All fun o : StoreOp => o ≠ .now) (hp : wp sealing p R w) :
    wp (sealContract policy) p.lift (fun r s' => R r s'.1 ∧ t = s'.2) (w, t) := by
  refine wp_solo_lift (K := Eq) hall (fun _ => rfl) (fun _ _ _ h h' => h.trans h')
    (fun o ho e s γ he => ?_) hp
  cases o with
  | now => exact absurd rfl ho
  | _ => exact ⟨he.1, rfl, id⟩

/-- An operation that only looks. -/
theorem wp_seal_look [SerdeJson] {α : Type} {o : StoreOp} {k : o.Resp → StreamProgram α}
    {Q : Except Abort α → World Unit × OffsetDateTime → Prop} (ho : o.isPassive = true)
    (hnow : o ≠ .now) (hk : ∀ x, wp (sealContract policy) (k x) Q (w, t)) :
    wp (sealContract policy) (.call (.op o) k) Q (w, t) := by
  intro e _
  have hnote : clockNote o e t = t := by
    cases o with
    | now => exact absurd rfl hnow
    | _ => rfl
  have hstep : (solo (eventStreams Unit) clockNote).step (.op o) e (w, t) =
      ((World.step () o e w).1, (w, t)) := by
    show ((World.step () o e w).1, ((World.step () o e w).2, clockNote o e t)) = _
    rw [step_passive ho, hnote]
  rw [hstep]
  exact ⟨SealedKept.refl w, hk _⟩

theorem wp_seal_now [SerdeJson] {α : Type} {k : OffsetDateTime → StreamProgram α}
    {Q : Except Abort α → World Unit × OffsetDateTime → Prop} (h : UpToDate policy (w, t))
    (hk : ∀ t', UpToDate policy (w, t') → wp (sealContract policy) (k t') Q (w, t')) :
    wp (sealContract policy) (.call (.op .now) k) Q (w, t) :=
  fun e he => ⟨SealedKept.refl w, hk e.now (h.tick (he.2 rfl))⟩

/-- **A rotation** to the window of the clock. -/
theorem wp_seal_rotatePartition [SerdeJson] (h : UpToDate policy (w, t)) (hms : t.unixTimestampMs = nowMs) :
    wp (sealContract policy) (rotatePartition policy nowMs)
      (fun _ s' => UpToDate policy s' ∧ t = s'.2) (w, t) := by
  subst hms
  have hfresh := h.placed.freshTarget h.round h.notBehind
  refine wp_solo_withWrite hfresh (fun _ => trivial) ?_
  have hall : (rotatePartitionLocked policy t.unixTimestampMs).All fun o : StoreOp => o ≠ .now :=
    (all_rotates policy _).mono fun o ho hnow => by
      subst hnow
      exact ho
  refine wp_mono (wp_seal_lift hall (h.placed.wp_rotate (C := sealing) h.round h.notBehind
    (fun o e w ho he => he.resolve_left (by simp [ho])) fun _ _ _ hkept => hkept)) fun r s' hr => ?_
  obtain ⟨w', t'⟩ := s'
  obtain ⟨⟨hw', hturned⟩, rfl⟩ := hr
  refine ⟨?_, rfl⟩
  rcases hturned with rfl | ⟨new, hnew⟩
  · exact h
  · exact h.turned hnew hw'

/-- What `maybe_rotate` decides, it decides at the last reading of the clock. -/
theorem wp_seal_rotationDue [SerdeJson] (h : UpToDate policy (w, t)) :
    wp (sealContract policy) (rotationDue policy).lift (fun r s' => UpToDate policy s' ∧
      ∀ nowMs, r = .ok (some nowMs) → s'.2.unixTimestampMs = nowMs) (w, t) := by
  rw [rotationDue_eq]
  refine wp_seal_look rfl (by simp) fun active => ?_
  cases active with
  | none => exact ⟨h, fun _ hr => by cases hr⟩
  | some a =>
    refine wp_seal_look rfl (by simp) fun size => wp_seal_now h fun t' h' => ?_
    show wp (sealContract policy) (rotationTime (shouldRotate policy size a.startMs t')).lift _ _
    cases shouldRotate policy size a.startMs t' with
    | none => exact ⟨h', fun _ hr => by cases hr⟩
    | some due =>
      cases due with
      | false => exact ⟨h', fun _ hr => by cases hr⟩
      | true =>
        refine wp_seal_now h' fun t'' h'' => ⟨h'', fun nowMs hr => ?_⟩
        simpa using hr

theorem wp_seal_maybeRotate [SerdeJson] (h : UpToDate policy (w, t)) :
    wp (sealContract policy) (maybeRotate policy) (fun _ s' => UpToDate policy s') (w, t) := by
  unfold maybeRotate
  rw [bind_eq]
  refine wp_bind_of (wp_solo_withRead sealContract_readLock (wp_seal_rotationDue h))
    (fun due s' hr => ?_) fun e s' hr => hr.1
  obtain ⟨w', t'⟩ := s'
  cases due with
  | none => exact hr.1
  | some nowMs => exact wp_mono (wp_seal_rotatePartition hr.1 (hr.2 nowMs rfl)) fun r s' hr => hr.1

/-- By induction on the passes of the loop, none of which reads the clock. -/
theorem wp_seal_rotateUntilCurrentWindow [SerdeJson] (fuel : Nat) (h : UpToDate policy (w, t))
    (hms : t.unixTimestampMs = nowMs) :
    wp (sealContract policy) (rotateUntilCurrentWindow policy nowMs fuel)
      (fun _ s' => UpToDate policy s' ∧ t = s'.2) (w, t) := by
  induction fuel generalizing w with
  | zero => exact ⟨h, rfl⟩
  | succ fuel ih =>
    unfold rotateUntilCurrentWindow
    rw [bind_eq]
    refine wp_bind_of (R := fun _ s' => s' = (w, t)) (wp_solo_withRead sealContract_readLock ?_)
      (fun current s' hs => ?_) fun e s' hs => ?_
    · rw [inCurrentWindow_eq]
      generalize floorToWindowMs nowMs policy.window = floored
      refine wp_seal_look rfl (by simp) fun active => ?_
      cases active <;> cases floored <;> rfl
    · subst hs
      cases current with
      | true => exact ⟨h, rfl⟩
      | false =>
        show wp (sealContract policy) ((rotatePartition policy nowMs).bind _) _ _
        refine wp_bind_of (wp_seal_rotatePartition h hms) (fun _ s' hr => ?_) fun e s' hr => hr
        obtain ⟨w', t'⟩ := s'
        obtain ⟨h', rfl⟩ := hr
        exact ih h'
    · subst hs
      exact ⟨h, rfl⟩

/-- The transaction of an append, on the file that the handle writes to. -/
theorem wp_seal_appendLocked {expected : ExpectedVersion} {events : List NewEvent}
    {baseTime : OffsetDateTime} (hadm : Admissible events baseTime) (h : Placed w) :
    wp sealing (appendLocked expected events baseTime)
      (fun _ w' => Placed w' ∧ w'.handles = w.handles ∧ w'.ranges = w.ranges) w := by
  unfold appendLocked
  simp only [bind_eq]
  rw [wp_bind]
  refine wp_look rfl (SealedKept.refl w) fun e _ => ?_
  cases ha : w.handles () with
  | none =>
    simp only [World.step, ha, Option.map_none]
    exact ⟨h, rfl, rfl⟩
  | some pa =>
    obtain ⟨p, a⟩ := pa
    simp only [World.step, ha, Option.map_some]
    show wp sealing ((getConnection (.eventFile a.name)).bind _) _ w
    rw [wp_bind]
    refine wp_getConnection (SealedKept.refl w) (fun _ => ?_) fun err _ => ⟨h, rfl, rfl⟩
    intro e _
    have hstep := step_appendTransaction expected events baseTime a.name (h := ()) (e := e) (w := w)
    generalize (World.step () (.appendTransaction a.name expected events baseTime) e w).2 = w' at hstep
    obtain ⟨hw', hkept, hsame⟩ := h.appendStep ha hadm hstep
    refine ⟨hkept, ?_⟩
    generalize (World.step () (.appendTransaction a.name expected events baseTime) e w).1 = r
    cases r with
    | ok result => exact ⟨hw', hsame⟩
    | error err => exact ⟨hw', hsame⟩

theorem all_appendLocked (expected : ExpectedVersion) (events : List NewEvent)
    (baseTime : OffsetDateTime) :
    (appendLocked expected events baseTime).All fun o : StoreOp => o ≠ .now := by
  unfold appendLocked
  refine All.bind ⟨by simp, fun active => by cases active <;> trivial⟩ fun active => ?_
  refine All.bind (all_getConnection (by simp)) fun _ => ⟨by simp, fun r => all_orEs r⟩

theorem wp_seal_append [SerdeJson] {fuel : Nat} {expected : ExpectedVersion} {events : List NewEvent}
    (h : UpToDate policy (w, t)) :
    wp (sealContract policy) (append policy fuel expected events) (fun _ s' => UpToDate policy s')
      (w, t) := by
  unfold append
  rw [bind_eq]
  refine wp_bind_of (wp_seal_maybeRotate h) (fun _ s' h' => ?_) fun e s' h' => h'
  obtain ⟨w₁, t₁⟩ := s'
  show wp (sealContract policy) (if events.isEmpty then _ else _) _ _
  split
  · exact h'
  · cases hvalid : validateEvents events with
    | error err => exact h'
    | ok u =>
      -- the clock is read here, before the lock: the rotations below go by this instant
      refine wp_seal_now h' fun t' h'' => ?_
      show wp (sealContract policy) (appendAt policy fuel expected events t'.unixTimestampMs
        (OffsetDateTime.fromUnixTimestampNanos (t'.unixTimestampMs * 1000000))) _ _
      generalize hms : t'.unixTimestampMs = nowMs
      cases hbase : OffsetDateTime.fromUnixTimestampNanos (nowMs * 1000000) with
      | none => exact h''
      | some baseTime =>
        show wp (sealContract policy) ((rotateUntilCurrentWindow policy nowMs fuel).bind _) _ _
        refine wp_bind_of (wp_seal_rotateUntilCurrentWindow fuel h'' hms) (fun _ s' hr => ?_)
          fun e s' hr => hr.1
        obtain ⟨w₂, t₂⟩ := s'
        obtain ⟨h₂, rfl⟩ := hr
        have hadm : Admissible events baseTime :=
          ⟨hvalid, OffsetDateTime.fromUnixTimestampNanos_ms hbase⟩
        -- under the write lock the active file is still the one of this window
        refine wp_solo_withWrite trivial (fun _ => trivial) ?_
        refine wp_mono (wp_seal_lift (all_appendLocked expected events baseTime)
          (wp_seal_appendLocked hadm h₂.placed)) fun r s' hr => ?_
        obtain ⟨w₃, t₃⟩ := s'
        obtain ⟨⟨hw₃, hhandles, hranges⟩, rfl⟩ := hr
        refine h₂.of_same hw₃ hranges fun p a ha => ?_
        rw [hhandles] at ha
        exact h₂.samePolicy p a ha

/-- Opening with the same policy. -/
theorem wp_seal_open [SerdeJson] (h : UpToDate policy (w, t)) :
    wp (sealContract policy) (withWrite (.opening policy) (openPartitioned policy))
      (fun _ s' => UpToDate policy s') (w, t) := by
  refine wp_solo_withWrite trivial (fun _ => trivial) ?_
  have hopen : wp sealing (openPartitioned policy)
      (fun _ w' => Placed w' ∧ w'.ranges = w.ranges ∧
        ∀ p a, w'.handles () = some (p, a) → p = policy) w := by
    refine h.placed.wp_open (fun _ _ _ hkept => hkept) (fun a w' hsame ha hw' => ?_)
      fun e w' hopened hw' => ?_
    · refine ⟨hw', hsame.ranges, fun p a' ha' => ?_⟩
      rw [ha] at ha'
      exact (Prod.mk.inj (Option.some.inj ha')).1.symm
    · refine ⟨hw', hopened.ranges, fun p a ha => ?_⟩
      rw [hopened.handles] at ha
      exact h.samePolicy p a ha
  have hall : (openPartitioned policy).All fun _ : StoreOp => True :=
    (all_openPartitioned policy).mono fun _ _ => trivial
  refine wp_mono (wp_solo_lift (K := fun t t' => t = t' ∨ Ticks policy t t') hall (fun _ => .inl rfl)
    ?_ (fun o _ e s γ he => ?_) hopen) fun r s' hr => ?_
  · rintro t₁ t₂ t₃ (rfl | h₁) h₂
    · exact h₂
    · rcases h₂ with rfl | h₂
      · exact .inr h₁
      · exact .inr ⟨h₁.le.trans h₂.le, h₂.round⟩
  · cases o with
    | now => exact ⟨he.1, .inr (he.2 rfl), id⟩
    | _ => exact ⟨he.1, .inl rfl, id⟩
  · obtain ⟨w', t'⟩ := s'
    obtain ⟨⟨hw', hranges, hpolicy⟩, htime⟩ := hr
    have h' := h.of_same hw' hranges hpolicy
    rcases htime with rfl | htime
    · exact h'
    · exact h'.tick htime

/-- The policy of a call that may rotate. -/
def StreamCall.rotates : StreamCall → Option RotationPolicy
  | .append rotation _ _ _ => some rotation
  | .maybeRotate rotation => some rotation
  | _ => none

/-- The calls of a client that opens its handle with the policy. -/
def SamePolicy (policy : RotationPolicy) : StreamCall → Prop
  | .openPartitioned rotation => rotation = policy
  | _ => True

/-- A call whose answer is wrapped. -/
theorem wp_seal_then [SerdeJson] {α : Type} {p : StreamProgram α} {f : α → StreamAns}
    (hp : wp (sealContract policy) p (fun _ s' => UpToDate policy s') s) :
    wp (sealContract policy) (p.bind fun x => pure (f x)) (fun _ s' => UpToDate policy s') s :=
  wp_bind_of hp (fun _ _ h => h) fun _ _ h => h

/-- A body that only looks. -/
theorem wp_seal_passive [SerdeJson] {α : Type} {p : StoreProgram α} (h : UpToDate policy (w, t))
    (hp : p.All fun o : StoreOp => o.isPassive = true) :
    wp (sealContract policy) p.lift (fun _ s' => UpToDate policy s') (w, t) := by
  induction p generalizing t with
  | done r => exact h
  | call o k ih =>
    by_cases hnow : o = .now
    · subst hnow
      exact wp_seal_now h fun t' h' => ih t' h' (hp.2 t')
    · exact wp_seal_look hp.1 hnow fun x => ih x h (hp.2 x)

/-- **The calls of one client** keep what is between two calls. -/
theorem soloLawful [SerdeJson] : SoloLawful (sealContract policy) (SamePolicy policy) (UpToDate policy) where
  code call s hcall h hready := by
    obtain ⟨w, t⟩ := s
    -- the handle of an append or a rotation is open, with the policy
    have hopened : ∀ (made : StreamCall) rotation, made.rotates = some rotation →
        made.ready () w = true → rotation = policy := by
      intro made rotation hrotates hready
      cases hh : w.handles () with
      | none => cases made <;> simp [StreamCall.ready, StreamCall.rotates, hh] at hready hrotates
      | some pa =>
        obtain ⟨p, a⟩ := pa
        have hp := h.samePolicy p a hh
        cases made <;> simp_all [StreamCall.ready, StreamCall.rotates]
    cases call with
    | openPartitioned rotation =>
      obtain rfl : rotation = policy := hcall
      exact wp_seal_then (wp_seal_open h)
    | append rotation fuel expected events =>
      obtain rfl := hopened (.append rotation fuel expected events) rotation rfl hready
      exact wp_seal_then (wp_seal_append h)
    | maybeRotate rotation =>
      obtain rfl := hopened (.maybeRotate rotation) rotation rfl hready
      exact wp_seal_then (wp_seal_maybeRotate h)
    | loadAfterVersion rotation cursor limit =>
      have hreads := all_loadAfterVersion (P := fun o : StoreOp => o.isPassive = true) (fun _ => rfl)
        (fun _ _ h => h) cursor limit
      exact wp_seal_then (wp_seal_passive h hreads)
    | currentVersion rotation =>
      exact wp_seal_then (wp_solo_withRead sealContract_readLock
        (wp_seal_passive h all_currentVersionLocked))
  restart s t h := h.restart
  locks cmd s hcmd := by
    refine ⟨{}, ?_⟩
    cases cmd with
    | op o => exact absurd rfl (hcmd o)
    | _ => trivial

end Calls

/-! ## Runs -/

section Runs

variable [SerdeJson] {policy : RotationPolicy} {w₀ : World Unit} {t₀ t : OffsetDateTime}
  {tick : OffsetDateTime → OffsetDateTime → Prop} {c : Config (eventStreams Unit) Unit}
  {l : Label (eventStreams Unit) Unit}
  {tr : List (Label (eventStreams Unit) Unit × Config (eventStreams Unit) Unit)}

/-- The client opens with the policy, the stream is closed between two calls only, no step fails but the
transactions of appends, and two readings of the clock, one after the other, are related. -/
def OneByOne (policy : RotationPolicy) (tick : OffsetDateTime → OffsetDateTime → Prop)
    (t : OffsetDateTime) (c : Config (eventStreams Unit) Unit) :
    Label (eventStreams Unit) Unit → Prop
  | .invoke _ _ made => SamePolicy policy made
  | .op _ _ o e => Steady o e ∧ (o = .now → tick t e.now)
  | .restart => c.tasks () = none
  | _ => True

/-- A clock that does not go back. -/
def NotBack (t t' : OffsetDateTime) : Prop := t.unixTimestampNanos ≤ t'.unixTimestampNanos

theorem permits_of_oneByOne (h : OneByOne policy (Ticks policy) t c l) :
    SoloPermits (sealContract policy) (SamePolicy policy) t c l := by
  cases l <;> exact h

omit [SerdeJson] in
/-- The first file belongs to the window of the clock. -/
theorem FirstOpen.upToDate {a : ActivePartition} (h : FirstOpen policy t a w₀)
    (hstart : floorToWindowMs t₀.unixTimestampMs policy.window = some a.startMs)
    (hround : NamesRoundTrip policy.window t₀.unixTimestampMs) : UpToDate policy (w₀, t₀) := by
  have hplaced : Placed w₀ :=
    h.placed (hround a.startMs hstart none fun o ho => by cases ho)
  refine ⟨hplaced, fun p a' ha' => ?_, hround, fun init r q hinit hat => ?_⟩
  · rw [h.handle] at ha'
    exact (Prod.mk.inj (Option.some.inj ha')).1.symm
  · have hsplit : [] ++ [rangeOf a.name 0] = init ++ [r] := h.ranges.symm.trans hinit
    obtain ⟨-, hr⟩ := List.append_inj' hsplit rfl
    obtain rfl := List.singleton_inj.1 hr
    obtain rfl := hat.unique (hplaced.named policy a h.handle)
    exact (floorToWindowMs_some hstart).le

/-- **Sealed files are final**: one client appends, rotates and reopens with one policy, under a clock
that does not go back and reads only times whose names are read back. Every rotation goes to a new name,
and what is sealed stays as it is. -/
theorem sealed_files_final (hopen : Opens policy World.empty w₀)
    (hstart : ∀ p a, w₀.handles () = some (p, a) →
      floorToWindowMs t₀.unixTimestampMs policy.window = some a.startMs)
    (hround : NamesRoundTrip policy.window t₀.unixTimestampMs)
    (hrun : IsRunWith (soloRecord clockNote) (OneByOne policy (Ticks policy)) t₀
      (Config.idle Unit w₀) tr) : SealsForGood (Config.idle Unit w₀) tr := by
  obtain ⟨t, a, hfirst⟩ := firstOpen_of_opens hopen
  have hup := hfirst.upToDate (hstart policy a hfirst.handle) hround
  refine sealsForGood_of_steps (P := SoloInv (sealContract policy) (UpToDate policy)) hrun hup ?_
  intro t c l c' hc hstep hone
  obtain ⟨hdone, hc'⟩ := solo_step soloLawful hc hstep (permits_of_oneByOne hone)
  refine ⟨hc', sealedKept_of_op hstep fun _ _ o e hlabel => ?_, ?_⟩
  · subst hlabel
    exact hdone
  · cases l with
    | acquireWrite _ _ note =>
      cases note with
      | rotating rotation nowMs => exact hdone
      | _ => trivial
    | _ => trivial

/-! ## Computed runs -/

/-- The test of `OneByOne` for a clock that does not go back. -/
def isOneByOne (policy : RotationPolicy) (t : OffsetDateTime) (c : Config (eventStreams Unit) Unit) :
    Label (eventStreams Unit) Unit → Bool
  | .invoke _ _ (.openPartitioned rotation) => decide (rotation = policy)
  | .op _ _ .now e => decide (t.unixTimestampNanos ≤ e.now.unixTimestampNanos)
  | .restart => (c.tasks ()).isNone
  | _ => true

theorem oneByOne_of_play {ms : List (Move (eventStreams Unit) Unit)} (h : play ms c = some tr)
    (hcheck : checksWith (soloRecord clockNote) (isOneByOne policy) t c tr = true)
    (hms : ∀ h e, Move.turn h e ∈ ms → e.fault = none ∧ (∀ i, e.statementFault i = none) ∧
      ∀ t, NotBack t e.now → tick t e.now) :
    IsRunWith (soloRecord clockNote) (OneByOne policy tick) t c tr := by
  refine ((play_checksWith h hcheck).andRun (play_env h hms)).mono fun t c l hl => ?_
  obtain ⟨hcheck, henv⟩ := hl
  cases l with
  | invoke _ _ made =>
    cases made with
    | openPartitioned rotation =>
      show rotation = policy
      exact of_decide_eq_true hcheck
    | _ => trivial
  | op hd t' o e =>
    obtain ⟨hfault, hstatements, htick⟩ := henv hd t' o e rfl
    refine ⟨.inr ⟨hfault, hstatements⟩, fun ho => ?_⟩
    subst ho
    have hle : t.unixTimestampNanos ≤ e.now.unixTimestampNanos := of_decide_eq_true hcheck
    exact htick t hle
  | restart => exact Option.isNone_iff_eq_none.1 hcheck
  | _ => trivial

end Runs

attribute [local instance] SerdeJson.limited

theorem sealed_files_final_reopenBetween : ∃ tr,
    play reopenBetween (Config.idle Unit opened) = some tr ∧
    (lastOf (Config.idle Unit opened) tr).st.files.keys.length = 2 ∧
    SealsForGood (Config.idle Unit opened) tr := by
  have hplay : ((play reopenBetween (Config.idle Unit opened)).map fun tr =>
      checksWith (soloRecord clockNote) (isOneByOne hourly) .unixEpoch (Config.idle Unit opened) tr &&
      (lastOf (Config.idle Unit opened) tr).st.files.keys.length == 2) = some true := by
    decide +kernel
  obtain ⟨tr, htr, hchecks⟩ := Option.map_eq_some_iff.1 hplay
  obtain ⟨hcheck, hfiles⟩ := Bool.and_eq_true_iff.1 hchecks
  have hrun : IsRunWith (soloRecord clockNote) (OneByOne hourly (Ticks hourly)) .unixEpoch
      (Config.idle Unit opened) tr := oneByOne_of_play htr hcheck fun h e he => ?_
  · refine ⟨tr, htr, by simpa using hfiles, sealed_files_final opens_opened (fun p a ha => ?_)
      (namesRoundTrip_hour (by decide) (by decide)) hrun⟩
    rw [opened_handle] at ha
    cases ha
    decide
  · have hcases : e = {} ∨ e = atOne ∨ e = atOneAgain := by
      simpa [reopenBetween, or_assoc] using he
    rcases hcases with rfl | rfl | rfl <;>
      exact ⟨rfl, fun _ => rfl, fun t ht => ⟨ht, namesRoundTrip_hour (by decide) (by decide)⟩⟩

/-- Windows of half a minute: the label of a window names its minute. -/
def halfMinutes : RotationPolicy := .timeWindow (.fromSecs 30 (by decide)) none

/-- The store of `halfMinutes` after its first open, at the epoch. -/
def halfOpened : World Unit :=
  (eval (storeMachine ()) (fun _ => {}) 0 (openPartitioned halfMinutes) World.empty).2

/-- Half a minute after the epoch. -/
def atHalf : StoreEnv where
  now := ⟨30 * 1000000000, by decide, by decide⟩
  ids i := ⟨BitVec.ofNat 128 (i + 1)⟩

/-- An append in the first half of a minute, and a rotation in the second one. -/
def sameMinute : List (Move (eventStreams Unit) Unit) :=
  .invoke () () (.append halfMinutes 2 .any [noteEvent]) :: List.replicate 15 (.turn () {}) ++
    .invoke () () (.maybeRotate halfMinutes) :: List.replicate 23 (.turn () atHalf)

/-- Both windows have the same name, so the rotation seals the file and opens it again. -/
theorem not_sealed_files_final_sameMinute : 1 ≤ halfMinutes.window.asMillis ∧
    Opens halfMinutes World.empty halfOpened ∧
    ∃ tr, play sameMinute (Config.idle Unit halfOpened) = some tr ∧
    IsRunWith (soloRecord clockNote) (OneByOne halfMinutes NotBack) .unixEpoch
      (Config.idle Unit halfOpened) tr ∧
    ¬SealsForGood (Config.idle Unit halfOpened) tr := by
  refine ⟨by decide, ?_, ?_⟩
  · have hok : (eval (storeMachine ()) (fun _ => {}) 0 (openPartitioned halfMinutes) World.empty).1 =
        .ok () := by decide +kernel
    have h := @eval_runs _ _ _ _ (anything ()) (fun _ => {}) (fun _ _ _ => trivial) 0
      (openPartitioned halfMinutes) (World.empty (H := Unit))
    rw [hok] at h
    exact h
  have hplay : ((play sameMinute (Config.idle Unit halfOpened)).map fun tr =>
      checksWith (soloRecord clockNote) (isOneByOne halfMinutes) .unixEpoch
        (Config.idle Unit halfOpened) tr &&
      (lastOf (Config.idle Unit halfOpened) (tr.take 30)).st.ranges.any fun r =>
        r.isSealed && !decide (r ∈ (lastOf (Config.idle Unit halfOpened) tr).st.ranges)) =
      some true := by decide +kernel
  obtain ⟨tr, htr, hchecks⟩ := Option.map_eq_some_iff.1 hplay
  obtain ⟨hcheck, hlost⟩ := Bool.and_eq_true_iff.1 hchecks
  refine ⟨tr, htr, oneByOne_of_play htr hcheck fun h e he => ?_, fun hgood => ?_⟩
  · have hcases : e = {} ∨ e = atHalf := by simpa [sameMinute] using he
    rcases hcases with rfl | rfl <;> exact ⟨rfl, fun _ => rfl, fun t ht => ht⟩
  · obtain ⟨r, hr, hsealed⟩ := List.any_eq_true.1 hlost
    obtain ⟨hsealed, hgone⟩ := Bool.and_eq_true_iff.1 hsealed
    have hkept := (hgood.kept _ _ (List.take_append_drop 30 tr).symm r hr hsealed).1
    simp [hkept] at hgone

end Events
