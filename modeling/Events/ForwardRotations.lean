import Events.Reopening
import Events.DueRotation

/-!
# Rotations that go forward

The files of a store are in the order of their windows and ordinals, which their names say. As long as a
rotation does not go to an earlier window than that of the active file, it goes behind all files there
are, and so to a name that has no file yet.

* **`Before`** — the order of the files.
* **`Placed`** — the invariant: the newest file comes last.
* **`Placed.freshTarget`** — a rotation that does not go back goes to a new name.
* **`rotations_go_forward`** — the result on runs.
-/

namespace Events

open Proc Program Discipline

/-! ## The order of the files -/

/-- The first file of a window has no ordinal. -/
def rank : Option Nat → Nat
  | none => 0
  | some n => n + 1

/-- A file of an earlier window, or an earlier one of the same window. -/
def Before (p q : Int × Option Nat) : Prop := p.1 < q.1 ∨ (p.1 = q.1 ∧ rank p.2 < rank q.2)

/-- The same place, or an earlier one. -/
def NotAfter (p q : Int × Option Nat) : Prop := p.1 < q.1 ∨ (p.1 = q.1 ∧ rank p.2 ≤ rank q.2)

theorem NotAfter.refl (p : Int × Option Nat) : NotAfter p p := .inr ⟨rfl, le_refl _⟩

theorem Before.notAfter {p q : Int × Option Nat} (h : Before p q) : NotAfter p q :=
  h.imp_right fun h => ⟨h.1, h.2.le⟩

theorem NotAfter.trans {p q r : Int × Option Nat} (h : NotAfter p q) (h' : NotAfter q r) :
    NotAfter p r := by
  unfold NotAfter at *
  omega

theorem NotAfter.ne_of_before {p q r : Int × Option Nat} (h : NotAfter p q) (h' : Before q r) :
    p ≠ r := by
  rintro rfl
  unfold NotAfter at h
  unfold Before at h'
  omega

/-! ## Names that are read back -/

/-- The ordinal is absent or in its range. -/
def ValidOrdinal (ordinal : Option Nat) : Prop :=
  ∀ o, ordinal = some o → 1 ≤ o ∧ o ≤ maxOverflowOrdinal

/-- The names of the window that a time falls into are read back. -/
def NamesRoundTrip (window : Duration) (nowMs : Int) : Prop :=
  ∀ startMs, floorToWindowMs nowMs window = some startMs →
    ∀ ordinal, ValidOrdinal ordinal → RoundTrips startMs window ordinal

/-- They are if the window starts with one of its label. -/
theorem namesRoundTrip_of_dvd {window : Duration} {nowMs : Int} (hw : 1 ≤ window.asMillis)
    (hw' : window.asMillis < 2 ^ 63) (h₀ : 0 ≤ nowMs) (h₁ : nowMs < 253402300800000)
    (hdvd : labelMs window ∣ nowMs / window.asMillis * window.asMillis) :
    NamesRoundTrip window nowMs := by
  intro startMs hstart ordinal ho
  obtain ⟨start, hstart', hround⟩ := (floor_roundTrips_iff hw hw' h₀ h₁ ho).2 hdvd
  obtain rfl := Option.some.inj (hstart.symm.trans hstart')
  exact hround

/-- Windows of one hour start with an hour. -/
theorem namesRoundTrip_hour {nowMs : Int} (h₀ : 0 ≤ nowMs) (h₁ : nowMs < 253402300800000) :
    NamesRoundTrip (.fromSecs 3600 (by decide)) nowMs :=
  namesRoundTrip_of_dvd (by decide) (by decide) h₀ h₁ (Dvd.intro_left _ rfl)

/-- The time that a rotation goes to is not in an earlier window than the active file. -/
def NotBehind (rotation : RotationPolicy) (nowMs : Int) (w : World Unit) : Prop :=
  ∀ p a startMs, w.handles () = some (p, a) → floorToWindowMs nowMs rotation.window = some startMs →
    a.startMs ≤ startMs

theorem getNextOrdinal_valid {ordinal : Option Nat} {n : Nat} (h : getNextOrdinal ordinal = some n) :
    ValidOrdinal (some n) ∧ rank ordinal < rank (some n) := by
  unfold getNextOrdinal at h
  split at h
  · cases h
    exact ⟨fun o ho => by cases ho; decide, by decide⟩
  · split at h
    · cases h
      refine ⟨fun o ho => ?_, by simp [rank]⟩
      obtain rfl := Option.some.inj ho
      omega
    · cases h

/-- **A rotation goes behind the active file**, and its name says so. -/
theorem determineNewPartitionInfo_before {rotation : RotationPolicy} {startMs nowMs : Int}
    {ordinal : Option Nat} {name : Text} {newStartMs : Int} {newOrdinal : Option Nat}
    (hround : NamesRoundTrip rotation.window nowMs)
    (hforward : ∀ s, floorToWindowMs nowMs rotation.window = some s → startMs ≤ s)
    (h : determineNewPartitionInfo rotation startMs ordinal nowMs = .ok (name, newStartMs, newOrdinal)) :
    parsePartitionName name = .ok (newStartMs, newOrdinal) ∧
      Before (startMs, ordinal) (newStartMs, newOrdinal) := by
  -- a name that was made is read back
  have hread : ∀ {s o n}, floorToWindowMs nowMs rotation.window = some s → ValidOrdinal o →
      generatePartitionName s rotation.window o = .ok n → parsePartitionName n = .ok (s, o) := by
    intro s o n hs ho hn
    obtain ⟨n', hn', hparse⟩ := hround s hs o ho
    obtain rfl : n' = n := Except.ok.inj (hn'.symm.trans hn)
    exact hparse
  unfold determineNewPartitionInfo at h
  cases hfloor : floorToWindowMs nowMs rotation.window with
  | none =>
    rw [hfloor] at h
    cases h
  | some s =>
    simp only [hfloor] at h
    have hle := hforward s hfloor
    by_cases hs : s = startMs
    · -- the same window: the next ordinal
      rw [if_pos hs] at h
      rw [← hs]
      cases hnext : getNextOrdinal ordinal with
      | none =>
        rw [hnext] at h
        cases h
      | some n =>
        simp only [hnext] at h
        obtain ⟨hvalid, hrank⟩ := getNextOrdinal_valid hnext
        cases hname : generatePartitionName s rotation.window (some n) with
        | error err =>
          rw [hname] at h
          cases h
        | ok newName =>
          rw [hname] at h
          cases h
          exact ⟨hread hfloor hvalid hname, .inr ⟨rfl, hrank⟩⟩
    · -- a later window: its base name
      rw [if_neg hs] at h
      cases hname : generatePartitionName s rotation.window none with
      | error err =>
        rw [hname] at h
        cases h
      | ok newName =>
        rw [hname] at h
        cases h
        refine ⟨hread hfloor (fun o ho => by cases ho) hname, .inl ?_⟩
        exact lt_of_le_of_ne hle fun heq => hs heq.symm

/-! ## The newest file comes last -/

/-- The name of a file says the place `p`. -/
def IsAt (name : Text) (p : Int × Option Nat) : Prop := parsePartitionName name = .ok p

theorem IsAt.unique {name : Text} {p q : Int × Option Nat} (hp : IsAt name p) (hq : IsAt name q) :
    p = q := Except.ok.inj (hp.symm.trans hq)

/-- No file comes behind the newest one, and the handle knows the place of its file. -/
structure Placed (w : World Unit) : Prop extends Clean w where
  last : ∃ init r p, w.ranges = init ++ [r] ∧ IsAt r.name p ∧
    ∀ name, w.files.lookup name ≠ none → ∃ q, IsAt name q ∧ NotAfter q p
  named : ∀ p a, w.handles () = some (p, a) → IsAt a.name (a.startMs, a.ordinal)

section Placed

variable {w w' : World Unit} {rotation : RotationPolicy} {nowMs : Int}

/-- The files do not come behind the one that the handle writes to. -/
theorem Placed.notAfter (h : Placed w) {p : RotationPolicy} {a : ActivePartition}
    (ha : w.handles () = some (p, a)) {name : Text} (hname : w.files.lookup name ≠ none) :
    ∃ q, IsAt name q ∧ NotAfter q (a.startMs, a.ordinal) := by
  obtain ⟨init, r, place, hinit, hat, hlast⟩ := h.last
  obtain ⟨init', r', hinit', hr'⟩ := h.writesNewest p a ha
  obtain ⟨-, hr⟩ := List.append_inj' (hinit.symm.trans hinit') rfl
  obtain rfl := List.singleton_inj.1 hr
  rw [hr'] at hat
  obtain rfl := hat.unique (h.named p a ha)
  exact hlast name hname

/-- **A rotation that does not go back** goes to a new name. -/
theorem Placed.freshTarget (h : Placed w) (hround : NamesRoundTrip rotation.window nowMs)
    (hforward : NotBehind rotation nowMs w) : FreshTarget rotation nowMs w := by
  intro p a name startMs ordinal ha hnew
  obtain ⟨hparse, hbefore⟩ := determineNewPartitionInfo_before hround
    (fun s hs => hforward p a s ha hs) hnew
  by_contra hfile
  obtain ⟨q, hq, hle⟩ := h.notAfter ha hfile
  exact hle.ne_of_before hbefore (hq.unique hparse)

/-- The new file comes last. -/
theorem Placed.turned (h : Placed w) (hround : NamesRoundTrip rotation.window nowMs)
    (hforward : NotBehind rotation nowMs w) {new : ActivePartition}
    (ht : Turned rotation nowMs new w w') (hw' : Clean w') : Placed w' := by
  obtain ⟨p, a, ha, ha', hnew⟩ := ht.target
  obtain ⟨hparse, hbefore⟩ := determineNewPartitionInfo_before hround
    (fun s hs => hforward p a s ha hs) hnew
  obtain ⟨init, r, -, hranges⟩ := ht.ranges
  refine { toClean := hw', last := ⟨_, _, (new.startMs, new.ordinal), hranges, hparse, ?_⟩,
           named := fun p' a' hp' => ?_ }
  · intro name hname
    by_cases hne : name = new.name
    · subst hne
      exact ⟨_, hparse, .refl _⟩
    · rw [ht.others name hne] at hname
      obtain ⟨q, hq, hle⟩ := h.notAfter ha hname
      exact ⟨q, hq, hle.trans hbefore.notAfter⟩
  · obtain ⟨-, rfl⟩ : p = p' ∧ new = a' := by simpa [ha'] using hp'
    exact hparse

/-- Nothing in the order has changed if there is no new file. -/
theorem Placed.of_same (h : Placed w) (hw' : Clean w') (hranges : w'.ranges = w.ranges)
    (hfiles : ∀ name, (w'.files.lookup name).isSome → (w.files.lookup name).isSome)
    (hnamed : ∀ p a, w'.handles () = some (p, a) → IsAt a.name (a.startMs, a.ordinal)) : Placed w' := by
  obtain ⟨init, r, place, hinit, hat, hlast⟩ := h.last
  refine ⟨hw', ⟨init, r, place, by rw [hranges, hinit], hat, fun name hname => hlast name ?_⟩, hnamed⟩
  exact Option.isSome_iff_ne_none.1 (hfiles name (Option.isSome_iff_ne_none.2 hname))

theorem Placed.restart (h : Placed w) : Placed w.restart :=
  h.of_same h.toClean.restart rfl (fun _ h => h) fun p a ha => by cases ha

theorem Placed.appendStep {p : RotationPolicy} {a : ActivePartition} {expected : ExpectedVersion}
    {events : List NewEvent} {baseTime : OffsetDateTime} {e : StoreEnv}
    {r : Except EsError AppendResult} (h : Placed w) (ha : w.handles () = some (p, a))
    (hadm : Admissible events baseTime) (hstep : AppendStep a.name expected events baseTime e w r w') :
    Placed w' ∧ SealedKept w w' ∧ w'.handles = w.handles ∧ w'.ranges = w.ranges := by
  obtain ⟨hw', hkept, hhandles, hranges, hfiles⟩ := h.toClean.appendStep ha hadm hstep
  refine ⟨h.of_same hw' hranges hfiles ?_, hkept, hhandles, hranges⟩
  rw [hhandles]
  exact h.named

/-- The store between two calls, after opening it again. -/
theorem Placed.opened (h : Placed w) (hsame : Unchanged w w') {p : RotationPolicy}
    {a : ActivePartition} (ha : w'.handles () = some (p, a)) (hnewest : Newest w a.name)
    (hparse : IsAt a.name (a.startMs, a.ordinal)) : Placed w' := by
  have hself : ∀ p' a', w'.handles () = some (p', a') → a = a' := fun p' a' ha' => by
    rw [ha] at ha'
    exact (Prod.mk.inj (Option.some.inj ha')).2
  refine h.of_same (h.toClean.of_unchanged hsame fun p' a' ha' => ?_) hsame.ranges
    (fun name hname => ?_) fun p' a' ha' => ?_
  · rw [← hself p' a' ha']
    exact hnewest
  · rwa [hsame.files] at hname
  · rw [← hself p' a' ha']
    exact hparse

/-- Opening that has failed has not changed the store. -/
theorem Placed.catalogOpened (h : Placed w) (hopened : CatalogOpened w w') : Placed w' := by
  refine h.of_same (h.toClean.of_unchanged hopened.unchanged fun p a ha => ?_) hopened.ranges
    (fun name hname => ?_) fun p a ha => ?_
  · rw [hopened.handles] at ha
    exact h.writesNewest p a ha
  · rwa [hopened.files] at hname
  · rw [hopened.handles] at ha
    exact h.named p a ha

/-- Opening keeps the order of the files, and the sealed ranges. -/
theorem Placed.wp_open {C : Contract (storeMachine ())} {Q : Except Abort Unit → World Unit → Prop}
    (h : Placed w) (hG : ∀ o w₁ w₂, SealedKept w₁ w₂ → C.guarantee o w₁ w₂)
    (hok : ∀ a w', Unchanged w w' → w'.handles () = some (rotation, a) → Placed w' → Q (.ok ()) w')
    (herr : ∀ e w', CatalogOpened w w' → Placed w' → Q (.error e) w') :
    wp C (openPartitioned rotation) Q w := by
  refine wp_openPartitioned_clean h.tiled h.openNewest (fun o w₁ w₂ _ hw₁ hw₂ => hG o w₁ w₂ ?_)
    (fun a w' hsame ha hnewest hparse => hok a w' hsame ha (h.opened hsame ha hnewest hparse))
    fun e w' hopened => herr e w' hopened (h.catalogOpened hopened)
  refine SealedKept.of_same (hw₂.ranges.trans hw₁.ranges.symm) fun name => ?_
  rw [World.rowsOf, hw₂.files, World.rowsOf, hw₁.files]

/-- A rotation that does not go back keeps the order of the files, and the sealed ranges. -/
theorem Placed.wp_rotate {C : Contract (storeMachine ())} (h : Placed w)
    (hround : NamesRoundTrip rotation.window nowMs) (hforward : NotBehind rotation nowMs w)
    (hcalm : ∀ o e w, o.isAppend = false → C.assume o e w →
      e.fault = none ∧ ∀ i, e.statementFault i = none)
    (hG : ∀ o w₁ w₂, SealedKept w₁ w₂ → C.guarantee o w₁ w₂) :
    wp C (rotatePartitionLocked rotation nowMs)
      (fun _ w' => Placed w' ∧ (w' = w ∨ ∃ new, Turned rotation nowMs new w w')) w := by
  refine wp_mono (h.toClean.wp_rotate (h.freshTarget hround hforward) hcalm
    fun o w₁ w₂ _ hkept => hG o w₁ w₂ hkept) fun r w' hr => ?_
  obtain ⟨hw', rfl | ⟨new, hnew⟩⟩ := hr
  · exact ⟨h, .inl rfl⟩
  · exact ⟨h.turned hround hforward hnew hw', .inr ⟨new, hnew⟩⟩

/-- The first file of a store is its last. -/
theorem FirstOpen.placed {t : OffsetDateTime} {a : ActivePartition} (h : FirstOpen rotation t a w)
    (hround : RoundTrips a.startMs rotation.window none) : Placed w := by
  have hparse : IsAt a.name (a.startMs, a.ordinal) := by
    obtain ⟨name, hname, hparse⟩ := hround
    obtain rfl : name = a.name := Except.ok.inj (hname.symm.trans h.starts.name)
    rw [h.starts.ordinal]
    exact hparse
  refine { toClean := h.clean, last := ⟨[], _, (a.startMs, a.ordinal), h.ranges, hparse, ?_⟩,
           named := fun p' a' hp' => ?_ }
  · intro name hname
    by_cases hne : name = a.name
    · subst hne
      exact ⟨_, hparse, .refl _⟩
    · exact absurd (h.others name hne) hname
  · obtain ⟨-, rfl⟩ : rotation = p' ∧ a = a' := by simpa [h.handle] using hp'
    exact hparse

end Placed

/-! ## The discipline -/

/-- A rotation that takes the write lock goes to a window whose names are read back, and that is not an
earlier one. -/
def ForwardNote : LockNote → World Unit → Prop
  | .rotating rotation nowMs, w => NamesRoundTrip rotation.window nowMs ∧ NotBehind rotation nowMs w
  | _, _ => True

/-- The calls on one stream, rotating forward: sealed ranges stay as they are, with their files. -/
def forwardDiscipline [SerdeJson] : Discipline (eventStreams Unit) CallStatus where
  allow o e _ := Steady o e
  allowWrite := ForwardNote
  restarts := .idle
  inv := Placed
  always _ := True
  guarantee _ _ := SealedKept
  ghost₀ := CallStatus.ofCall
  ghost o x status := status.after o x

theorem reads_forwardDiscipline [SerdeJson] : Reads forwardDiscipline fun _ => True where
  quiet _ ho x status := CallStatus.after_of_not_append ho x status
  refl _ _ w _ _ := SealedKept.refl w
  clock _ _ _ := trivial

/-- **The calls keep the order of the files.** -/
theorem lawful_forwardDiscipline [SerdeJson] : forwardDiscipline.Lawful AppendPost := by
  refine reads_forwardDiscipline.lawful_append rfl rfl (fun w hw => trivial) (fun _ w hw => hw.restart)
    nofun (fun rotation w _ _ => ?_) ?_ ?_
  · refine safe_withWrite fun w hw _ => ?_
    have hopen : wp (forwardDiscipline.contract .other) (openPartitioned rotation)
        (fun _ w' => Placed w') w :=
      hw.wp_open (fun _ _ _ hkept => ⟨hkept, trivial⟩) (fun _ _ _ _ hw' => hw') fun _ _ _ hw' => hw'
    exact safe_lift_writing
      ((all_openPartitioned rotation).mono fun o ho =>
        reads_forwardDiscipline.quiet o (isAppend_of_isUpkeep (isUpkeep_of_setsHeadTo ho))) hopen
      fun r w' hw' => ⟨rfl, hw', rfl, rfl⟩
  · intro rotation nowMs status w _ hw hforward
    refine wp_mono (hw.wp_rotate hforward.1 hforward.2 (fun o e w ho he => ?_)
      fun o w₁ w₂ hkept => ⟨hkept, trivial⟩) fun r w' hr => hr.1
    exact he.resolve_left (by simp [ho])
  · intro expected events baseTime p a e r w w' hw _ ha _ hadm hstep _
    obtain ⟨hw', hkept, -⟩ := hw.appendStep ha hadm hstep
    exact ⟨hkept, hw'⟩

/-! ## Runs -/

/-- No operation removes a file. -/
theorem step_files {o : StoreOp} {e : StoreEnv} {w : World Unit} {name : Text}
    (h : w.files.lookup name ≠ none) : (World.step () o e w).2.files.lookup name ≠ none := by
  -- no statement takes a file away: a step writes one file or none
  have hset : ∀ ref d, (w.setDb ref d).files.lookup name ≠ none := by
    intro ref d
    cases ref with
    | catalog => exact h
    | eventFile other =>
      by_cases hname : name = other
      · subst hname
        simp
      · rw [World.lookup_setDb_ne hname]
        exact h
  cases o with
  | buildDatabase ref =>
    simp only [World.step]
    repeat' split
    · exact h
    · exact h
    · exact hset ref _
  | sql ref s =>
    simp only [World.step, World.stepSql]
    repeat' split
    · exact h
    · exact h
    · exact h
    · exact hset ref _
    · exact h
  | appendTransaction other expected events baseTime =>
    simp only [World.step, World.stepAppend]
    repeat' split
    · exact h
    · exact hset (.eventFile other) _
    · exact hset (.eventFile other) _
  | replaceTransaction ranges =>
    rw [(step_onCatalog (h := ()) (o := .replaceTransaction ranges) (e := e) (w := w) rfl).files]
    exact h
  | setActive a => exact h
  | openHandle rotation a => exact h
  | _ =>
    rw [step_passive rfl]
    exact h

section Runs

variable [SerdeJson] {T : Type} [DecidableEq T] {rotation : RotationPolicy} {w₀ : World Unit}
  {tr : List (Label (eventStreams Unit) T × Config (eventStreams Unit) T)}
  {c c' : Config (eventStreams Unit) T} {l : Label (eventStreams Unit) T}

/-- Rotations go forward, to windows whose names are read back, the stream is closed between two calls
only, and no step fails but the transactions of appends. -/
def RotatesForward (c : Config (eventStreams Unit) T) : Label (eventStreams Unit) T → Prop
  | .acquireWrite _ _ note => ForwardNote note c.st
  | .op _ _ o e => Steady o e
  | .restart => ∀ t, c.tasks t = none
  | _ => True

omit [DecidableEq T] in
theorem permits_of_rotatesForward (h : RotatesForward c l) : forwardDiscipline.Permits c l := by
  cases l <;> exact h

/-- A rotation that takes the write lock goes to a name without a file. -/
def RotatesFresh (c : Config (eventStreams Unit) T) : Label (eventStreams Unit) T → Prop
  | .acquireWrite _ _ (.rotating rotation nowMs) => FreshTarget rotation nowMs c.st
  | _ => True

/-- The target of every rotation of the run is a name that no file has had so far, and what is sealed at
any moment of the run stays as it is to its end. -/
structure SealsForGood (c : Config (eventStreams Unit) T)
    (tr : List (Label (eventStreams Unit) T × Config (eventStreams Unit) T)) : Prop where
  fresh : ∀ tr₁ tr₂ t h rotation nowMs c',
    tr = tr₁ ++ (.acquireWrite t h (.rotating rotation nowMs), c') :: tr₂ →
    ∀ p a name startMs ordinal, (lastOf c tr₁).st.handles () = some (p, a) →
      determineNewPartitionInfo rotation a.startMs a.ordinal nowMs = .ok (name, startMs, ordinal) →
      ∀ earlier ∈ statesOf c tr₁, earlier.st.files.lookup name = none
  kept : ∀ tr₁ tr₂, tr = tr₁ ++ tr₂ → SealedKept (lastOf c tr₁).st (lastOf c tr).st

/-- What a step may do to the store, whichever call it belongs to. -/
theorem sealedKept_of_op (hstep : Step c l c')
    (hop : ∀ t h o e, l = .op t h o e → SealedKept c.st c'.st) : SealedKept c.st c'.st := by
  cases hstep with
  | op t h call o k e ht => exact hop t h o e rfl
  | restart => exact .refl _
  | _ => exact .refl _

theorem files_kept (hstep : Step c l c') {name : Text} (h : c.st.files.lookup name ≠ none) :
    c'.st.files.lookup name ≠ none := by
  cases hstep with
  | op t hd call o k e ht => exact step_files h
  | restart => exact h
  | _ => exact h

/-- A run whose steps keep what is sealed and whose rotations go to new names seals for good. -/
theorem sealsForGood_of_steps {Γ : Type} {record : Label (eventStreams Unit) T → Γ → Γ}
    {B : Γ → Config (eventStreams Unit) T → Label (eventStreams Unit) T → Prop}
    {P : Γ → Config (eventStreams Unit) T → Prop} {γ : Γ} (hrun : IsRunWith record B γ c tr)
    (hc : P γ c) (hstep : ∀ γ c l c', P γ c → Step c l c' → B γ c l →
      P (record l γ) c' ∧ SealedKept c.st c'.st ∧ RotatesFresh c l) : SealsForGood c tr := by
  -- induction on the run; `P` is what each step keeps
  induction tr generalizing γ c with
  | nil =>
    refine ⟨fun tr₁ tr₂ t h rotation nowMs c' heq => by simp at heq, fun tr₁ tr₂ heq => ?_⟩
    obtain ⟨rfl, rfl⟩ := List.append_eq_nil_iff.1 heq.symm
    exact .refl _
  | cons x tr ih =>
    obtain ⟨l, c₁⟩ := x
    obtain ⟨hx, hB, hrest⟩ := hrun
    obtain ⟨hP, hkept, hfresh⟩ := hstep γ c l c₁ hc hx hB
    have hlater := ih hrest hP
    constructor
    · intro tr₁ tr₂ t h rotation nowMs c' heq p a name startMs ordinal ha hnew earlier hearlier
      cases tr₁ with
      | nil =>
        obtain ⟨hl, -⟩ := List.cons.inj heq
        obtain ⟨rfl, -⟩ := Prod.mk.inj hl
        obtain rfl : earlier = c := by simpa [statesOf] using hearlier
        exact hfresh p a name startMs ordinal ha hnew
      | cons x tr₁ =>
        obtain ⟨rfl, htr⟩ := List.cons.inj heq
        have hall := hlater.fresh tr₁ tr₂ t h rotation nowMs c' htr p a name startMs ordinal ha hnew
        rcases List.mem_cons.1 hearlier with rfl | hearlier
        · -- a file that is there now is there after the step
          by_contra hfile
          exact files_kept hx hfile (hall c₁ (List.mem_cons_self ..))
        · exact hall earlier hearlier
    · intro tr₁ tr₂ heq
      cases tr₁ with
      | nil => exact hkept.trans (hlater.kept [] tr rfl)
      | cons x tr₁ =>
        obtain ⟨rfl, htr⟩ := List.cons.inj heq
        exact hlater.kept tr₁ tr₂ htr

/-- **Rotations go forward**: on a store whose first file has a name that is read back, calls that
interleave in any way rotate to new names only, and leave what is sealed as it is, if no rotation takes
the write lock with the time of an earlier window. -/
theorem rotations_go_forward (hopen : Opens rotation World.empty w₀)
    (hround : ∀ p a, w₀.handles () = some (p, a) → RoundTrips a.startMs p.window none)
    (hrun : IsRun RotatesForward (Config.idle T w₀) tr) : SealsForGood (Config.idle T w₀) tr := by
  obtain ⟨t, a, hfirst⟩ := firstOpen_of_opens hopen
  have hplaced := hfirst.placed (hround rotation a hfirst.handle)
  refine sealsForGood_of_steps (P := fun _ c => ∃ g, forwardDiscipline.Sound AppendPost c g)
    (hrun.isRunWith ()) ⟨fun _ => .other, sound_idle lawful_forwardDiscipline hplaced _⟩ ?_
  rintro - c l c' ⟨g, hs⟩ hstep hforward
  have hpermits := permits_of_rotatesForward hforward
  refine ⟨⟨_, sound_step lawful_forwardDiscipline hs hstep hpermits⟩, ?_, ?_⟩
  · refine sealedKept_of_op hstep fun t h o e hlabel => ?_
    subst hlabel
    exact (hs.guarantee hstep hpermits).1
  · cases hstep with
    | acquireWrite t h call note k ht hw hr =>
      cases note with
      | rotating rotation nowMs => exact (hs.free hw).freshTarget hforward.1 hforward.2
      | _ => trivial
    | _ => trivial

/-! ## Computed runs -/

/-- The test of `RotatesForward` for windows of one hour. -/
def isForward (c : Config (eventStreams Unit) T) : Label (eventStreams Unit) T → Bool
  | .acquireWrite _ _ (.rotating rotation nowMs) =>
    decide (rotation = hourly ∧ 0 ≤ nowMs ∧ nowMs < 253402300800000) &&
      match c.st.handles (), floorToWindowMs nowMs rotation.window with
      | some (_, a), some startMs => decide (a.startMs ≤ startMs)
      | _, _ => true
  | .restart => false
  | _ => true

theorem rotatesForward_of_play {ms : List (Move (eventStreams Unit) T)} (h : play ms c = some tr)
    (hcheck : checks isForward c tr = true)
    (hms : ∀ t e, Move.turn t e ∈ ms → e.fault = none ∧ ∀ i, e.statementFault i = none) :
    IsRun RotatesForward c tr := by
  refine ((play_checks h hcheck).and (play_env h hms)).mono fun c l hl => ?_
  cases l with
  | op t hd o e => exact .inr (hl.2 t hd o e rfl)
  | restart => cases hl.1
  | acquireWrite t hd note =>
    cases note with
    | rotating rotation nowMs =>
      obtain ⟨hbounds, hbehind⟩ := Bool.and_eq_true_iff.1 hl.1
      obtain ⟨rfl, h₀, h₁⟩ := of_decide_eq_true hbounds
      refine ⟨namesRoundTrip_hour h₀ h₁, fun p a startMs ha hfloor => ?_⟩
      simp only [ha, hfloor] at hbehind
      exact of_decide_eq_true hbehind
    | _ => trivial
  | _ => trivial

end Runs

attribute [local instance] SerdeJson.limited

/-- Two clients append in two hours, the second one while another call is under way. -/
def overTheHour : List (Move (eventStreams Unit) Bool) :=
  .invoke true () (.append hourly 2 .any [noteEvent]) :: List.replicate 15 (.turn true {}) ++
    .invoke false () (.append hourly 2 .any [noteEvent]) ::
    .invoke true () (.append hourly 2 .any [noteEvent]) :: List.replicate 40 (.turn false atOne)

theorem rotations_go_forward_overTheHour : ∃ tr,
    play overTheHour (Config.idle Bool opened) = some tr ∧
    (lastOf (Config.idle Bool opened) tr).st.files.keys.length = 2 ∧
    SealsForGood (Config.idle Bool opened) tr := by
  have hplay : ((play overTheHour (Config.idle Bool opened)).map fun tr =>
      checks isForward (Config.idle Bool opened) tr &&
      (lastOf (Config.idle Bool opened) tr).st.files.keys.length == 2) = some true := by
    decide +kernel
  obtain ⟨tr, htr, hchecks⟩ := Option.map_eq_some_iff.1 hplay
  obtain ⟨hforward, hfiles⟩ := Bool.and_eq_true_iff.1 hchecks
  have hrun := rotatesForward_of_play htr hforward fun t e he => ?_
  · refine ⟨tr, htr, by simpa using hfiles, rotations_go_forward opens_opened (fun p a ha => ?_) hrun⟩
    rw [opened_handle] at ha
    cases ha
    exact (roundTrips_iff (by decide) (by decide) (by simp)).2 (by decide)
  · have hcases : e = {} ∨ e = atOne := by
      simp only [overTheHour] at he
      grind
    rcases hcases with rfl | rfl <;> exact ⟨rfl, fun _ => rfl⟩

/-- A client reads the clock in the first hour, and the other one rotates into the second before it goes
on. -/
def overtaken : List (Move (eventStreams Unit) Bool) :=
  .invoke true () (.append hourly 2 .any [noteEvent]) :: List.replicate 6 (.turn true {}) ++
    .invoke false () (.maybeRotate hourly) :: List.replicate 31 (.turn false atOne) ++
    List.replicate 28 (.turn true atOne)

/-- The first client rotates back: the file that was sealed is written to again. -/
theorem not_rotations_go_forward_overtaken : ∃ tr,
    play overtaken (Config.idle Bool opened) = some tr ∧
    IsRunWith History.record ClockOrdered (History.start .unixEpoch) (Config.idle Bool opened) tr ∧
    (∀ t e, Move.turn t e ∈ overtaken → e.fault = none ∧ ∀ i, e.statementFault i = none) ∧
    ¬SealsForGood (Config.idle Bool opened) tr := by
  have hplay : ((play overtaken (Config.idle Bool opened)).map fun tr =>
      checksWith History.record (fun γ c l => isClockOrdered γ c l)
        (History.start .unixEpoch) (Config.idle Bool opened) tr &&
      (lastOf (Config.idle Bool opened) (tr.take 39)).st.ranges.any fun r =>
        r.isSealed && !decide (r ∈ (lastOf (Config.idle Bool opened) tr).st.ranges)) = some true := by
    decide +kernel
  obtain ⟨tr, htr, hchecks⟩ := Option.map_eq_some_iff.1 hplay
  obtain ⟨hclock, hlost⟩ := Bool.and_eq_true_iff.1 hchecks
  refine ⟨tr, htr, (play_checksWith htr hclock).mono fun γ c l hl => clockOrdered_of_isClockOrdered hl,
    fun t e he => ?_, fun hgood => ?_⟩
  · have hcases : e = {} ∨ e = atOne := by
      simp only [overtaken] at he
      grind
    rcases hcases with rfl | rfl <;> exact ⟨rfl, fun _ => rfl⟩
  · obtain ⟨r, hr, hsealed⟩ := List.any_eq_true.1 hlost
    obtain ⟨hsealed, hgone⟩ := Bool.and_eq_true_iff.1 hsealed
    have hkept := (hgood.kept _ _ (List.take_append_drop 39 tr).symm r hr hsealed).1
    simp [hkept] at hgone

end Events
