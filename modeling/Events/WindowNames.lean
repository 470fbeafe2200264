import Events.CatalogRebuild

/-!
# Windows and their names

The name of an event file stands for its window: it is read back as the start of the window and the ordinal,
no other window has it, and a store that is opened again inside the window finds that its active file is the
current one. The label names a day, an hour or a minute, so a window that starts inside what its label names,
or is shorter than that, has no name of its own.

* **`StandsFor`** — the three properties of the name of a window.
* **`name_label`** — what two windows with one name have in common: the start of their label, and the ordinal.
* **`wp_reopen_active`** — opening a store again, with the name of the active file.
* **`standsFor_iff`** — the three hold together exactly where the window starts with its label and is not
  shorter than what the label names.
-/

namespace Events

open Proc Program

/-! ## What a name is for -/

/-- The catalog has one unsealed range, and the name is its name. -/
def ActiveFile (name : Text) (w : World Unit) : Prop :=
  ∃ r, (w.ranges.filter fun r => !r.isSealed) = [r] ∧ r.name = name

/-- The name of a window's event file stands for the window and the ordinal. -/
structure StandsFor (window : Duration) (startMs : Int) (ordinal : Option Nat) : Prop where
  /-- It is read back. -/
  roundTrip : RoundTrips startMs window ordinal
  /-- No other window has it, and no other ordinal. -/
  apart : ∀ (nowMs' startMs' : Int) (ordinal' : Option Nat) (name : Text), 0 ≤ nowMs' →
    nowMs' < 253402300800000 → ValidOrdinal ordinal' → floorToWindowMs nowMs' window = some startMs' →
    generatePartitionName startMs window ordinal = .ok name →
    generatePartitionName startMs' window ordinal' = .ok name → startMs' = startMs ∧ ordinal' = ordinal
  /-- A store whose active file has it is opened again: all through the window, the file is current. -/
  current : ∀ (maxBytes : Option Nat) (name : Text) (w w' : World Unit) (env : Nat → StoreEnv)
    (nowMs' : Int), generatePartitionName startMs window ordinal = .ok name → ActiveFile name w →
    Opens (.timeWindow window maxBytes) w w' → floorToWindowMs nowMs' window = some startMs →
    (eval (storeMachine ()) env 0 (inCurrentWindow (.timeWindow window maxBytes) nowMs') w').1 = .ok true

/-! ## Two windows with one name -/

section Names

variable {window : Duration} {startMs startMs' : Int} {ordinal ordinal' : Option Nat} {name : Text}

/-- Windows with one name have labels that start together, and one ordinal. -/
theorem name_label (h₀ : 0 ≤ startMs) (h₁ : startMs < 253402300800000) (ho : ValidOrdinal ordinal)
    (h₀' : 0 ≤ startMs') (h₁' : startMs' < 253402300800000) (ho' : ValidOrdinal ordinal')
    (hname : generatePartitionName startMs window ordinal = .ok name)
    (hname' : generatePartitionName startMs' window ordinal' = .ok name) :
    startMs - startMs % labelMs window = startMs' - startMs' % labelMs window ∧ ordinal = ordinal' := by
  rw [generatePartitionName_eq (by omega) h₁ ho] at hname
  rw [generatePartitionName_eq (by omega) h₁' ho'] at hname'
  have hnamed : Named name ((partsOf startMs window ordinal).startMs, ordinal) :=
    ⟨_, valid_partsOf (by omega) h₁ ho, (Except.ok.inj hname).symm, rfl⟩
  have hnamed' : Named name ((partsOf startMs' window ordinal').startMs, ordinal') :=
    ⟨_, valid_partsOf (by omega) h₁' ho', (Except.ok.inj hname').symm, rfl⟩
  obtain ⟨hstart, hordinal⟩ := Prod.mk.inj (hnamed.unique hnamed')
  rw [startMs_partsOf (by omega) h₁, startMs_partsOf (by omega) h₁'] at hstart
  exact ⟨hstart, hordinal⟩

/-- A window shorter than its label is one of less than a minute, and the next window has its name. -/
theorem name_of_next (hw : window.asMillis < labelMs window) (h₀ : 0 ≤ startMs)
    (h₁ : startMs + window.asMillis < 253402300800000) (hdvd : labelMs window ∣ startMs)
    (ho : ValidOrdinal ordinal) :
    generatePartitionName (startMs + window.asMillis) window ordinal =
      generatePartitionName startMs window ordinal := by
  have hminute : window.asSecs < 3600 ∧ labelMs window = 60000 := by
    unfold labelMs Duration.asMillis at *
    split at hw
    · omega
    · split at hw
      · omega
      · exact ⟨by omega, by rw [if_neg (by omega), if_neg (by omega)]⟩
  rw [hminute.2] at hw hdvd
  obtain ⟨k, rfl⟩ := hdvd
  rw [generatePartitionName_eq (by omega) h₁ ho, generatePartitionName_eq (by omega) (by omega) ho]
  -- day, hour and minute of the two starts are the same
  have hday : (60000 * k + window.asMillis) / 1000 / 86400 = 60000 * k / 1000 / 86400 := by omega
  have hhour : (60000 * k + window.asMillis) / 1000 % 86400 / 3600 = 60000 * k / 1000 % 86400 / 3600 := by
    omega
  have hmin : (60000 * k + window.asMillis) / 1000 % 3600 / 60 = 60000 * k / 1000 % 3600 / 60 := by omega
  dsimp only [partsOf]
  rw [hday, hhour, hmin]

/-- Where the window starts with its label and is not shorter, it has its name for itself. -/
theorem startMs_eq_of_label (hdvd : labelMs window ∣ startMs) (hle : labelMs window ≤ window.asMillis)
    (hw : (window.asMillis : Int) ∣ startMs) (hw' : (window.asMillis : Int) ∣ startMs')
    (hlabel : startMs - startMs % labelMs window = startMs' - startMs' % labelMs window) :
    startMs' = startMs := by
  have hpos : 0 < labelMs window := by unfold labelMs; split <;> [skip; split] <;> omega
  rw [Int.emod_eq_zero_of_dvd hdvd, Int.sub_zero] at hlabel
  have hrest := Int.emod_nonneg startMs' hpos.ne'
  have hlt := Int.emod_lt_of_pos startMs' hpos
  -- the two are multiples of the window, and less than one window apart
  obtain ⟨k, rfl⟩ := hw
  obtain ⟨k', rfl⟩ := hw'
  have hnear : (window.asMillis : Int) * (k' - k) < window.asMillis * 1 ∧
      window.asMillis * 0 ≤ (window.asMillis : Int) * (k' - k) := by
    rw [Int.mul_sub]
    omega
  have hms : (0 : Int) < window.asMillis := by omega
  have hupper := lt_of_mul_lt_mul_left hnear.1 hms.le
  have hlower := le_of_mul_le_mul_left hnear.2 hms
  rw [show k' = k by omega]

end Names

/-! ## Opening the store again -/

section Reopening

variable {w w' : World Unit} {rotation : RotationPolicy} {name : Text} {v : Int × Option Nat}

/-- Whatever happens on the way, nothing is promised. -/
theorem wp_anything {α : Type} {p : StoreProgram α} {Q : Except Abort α → World Unit → Prop}
    (hQ : ∀ r w', Q r w') : wp (anything ()) p Q w := by
  induction p generalizing w with
  | done r => exact hQ r w
  | call o k ih => exact fun e _ => ⟨trivial, ih _⟩

/-- **Opening a store again** makes the file of the unsealed range active, with what its name says. -/
theorem wp_reopen_active (hactive : ActiveFile name w) (hparse : parsePartitionName name = .ok v) :
    wp (anything ()) (openPartitioned rotation)
      (fun r w' => r = .ok () → w'.handles () = some (rotation, ⟨name, v.1, v.2⟩)) w := by
  obtain ⟨r, hone, rfl⟩ := hactive
  refine wp_openPartitioned_of (fun _ _ _ _ _ _ => trivial) (fun w₁ hw₁ _ _ => ?_)
    fun e w' _ _ h => (by cases h)
  have hone₁ : (w₁.ranges.filter fun r => !r.isSealed) = [r] := by rw [hw₁.ranges]; exact hone
  refine wp_initialize_of (fun _ _ => trivial) (fun r' hr' _ _ => ?_) (fun hmany _ _ => ?_)
    fun e _ h => (by cases h)
  · obtain rfl : r = r' := List.singleton_inj.1 (hone₁.symm.trans hr')
    show wp (anything ()) ((ofAbort (parsePartitionName r.name)).bind _) _ w₁
    rw [hparse]
    show wp (anything ()) ((openPartitionDb r.path).bind _) _ w₁
    rw [wp_bind]
    refine wp_anything fun r₂ w₂ => ?_
    cases r₂ with
    | error e => exact fun h => (by cases h)
    | ok u =>
      refine ⟨trivial, fun _ => ?_⟩
      show Function.update w₂.handles () (some (rotation, _)) () = _
      rw [Function.update_self]
  · rw [hone₁] at hmany
    exact absurd rfl hmany

/-- The test of `rotate_until_current_window` on an open handle. -/
theorem eval_inCurrentWindow {p : RotationPolicy} {a : ActivePartition} {startMs nowMs : Int}
    (ha : w.handles () = some (p, a)) (hstart : floorToWindowMs nowMs rotation.window = some startMs)
    (env : Nat → StoreEnv) :
    (eval (storeMachine ()) env 0 (inCurrentWindow rotation nowMs) w).1 =
      .ok (decide (startMs = a.startMs)) := by
  rw [inCurrentWindow_eq, hstart]
  show (eval (storeMachine ()) env 1 (match (w.handles ()).map Prod.snd with
    | none => .done (.error .panic)
    | some active => (orPanic (some startMs)).bind fun floored =>
        .done (.ok (decide (floored = active.startMs)))) w).1 = _
  rw [ha]
  rfl

end Reopening

/-! ## The exact condition -/

section Main

variable {window : Duration} {ordinal : Option Nat} {nowMs : Int}

/-- **A name stands for its window** if and only if the window starts with its label, at a whole number of
days, hours or minutes, and is not shorter than what the label names. -/
theorem standsFor_iff (hw : 1 ≤ window.asMillis) (hw' : window.asMillis < 2 ^ 63) (h₀ : 0 ≤ nowMs)
    (h₁ : nowMs < 253402300800000) (ho : ValidOrdinal ordinal) :
    (∃ startMs, floorToWindowMs nowMs window = some startMs ∧ StandsFor window startMs ordinal) ↔
      labelMs window ∣ nowMs / window.asMillis * window.asMillis ∧
        labelMs window ≤ window.asMillis := by
  have hfloor := floorToWindowMs_eq hw hw' h₀
  obtain ⟨hs₀, hs₁⟩ := floor_bounds hw h₀ h₁
  constructor
  · rintro ⟨startMs, hstart, hstands⟩
    have hdvd := (floor_roundTrips_iff hw hw' h₀ h₁ ho).1 ⟨startMs, hstart, hstands.roundTrip⟩
    refine ⟨hdvd, ?_⟩
    obtain rfl := Option.some.inj (hfloor.symm.trans hstart)
    by_contra hshort
    -- the next window would have the same name
    have hbound : labelMs window ∣ 253402300800000 := by
      unfold labelMs
      split
      · decide
      · split <;> decide
    generalize hgen : nowMs / window.asMillis * window.asMillis = startMs at *
    have hnext : startMs + window.asMillis < 253402300800000 := by
      obtain ⟨k, rfl⟩ := hdvd
      obtain ⟨m, hm⟩ := hbound
      have hlt : k < m := by
        rw [hm] at hs₁
        exact lt_of_mul_lt_mul_left hs₁ (by omega)
      have hstep : labelMs window * (k + 1) ≤ labelMs window * m :=
        mul_le_mul_of_nonneg_left hlt (by omega)
      rw [Int.mul_add, Int.mul_one] at hstep
      omega
    have hfloor' : floorToWindowMs (startMs + window.asMillis) window =
        some (startMs + window.asMillis) := by
      rw [floorToWindowMs_eq hw hw' (by omega), ← hgen]
      have hsucc : nowMs / window.asMillis * window.asMillis + (window.asMillis : Int) =
          (nowMs / window.asMillis + 1) * window.asMillis := by rw [Int.add_mul, Int.one_mul]
      rw [hsucc, Int.mul_ediv_cancel _ (by omega)]
    have hname : generatePartitionName startMs window ordinal = _ :=
      generatePartitionName_eq (by omega) hs₁ ho
    have heq := (hstands.apart _ _ ordinal _ (by omega) hnext ho hfloor' hname
      (by rw [name_of_next (by omega) hs₀ hnext hdvd ho, hname])).1
    omega
  · rintro ⟨hdvd, hle⟩
    obtain ⟨name₀, hname₀, hparse₀⟩ := (roundTrips_iff (by omega) hs₁ ho).2 hdvd
    refine ⟨_, hfloor, ⟨name₀, hname₀, hparse₀⟩, ?_, ?_⟩
    · intro nowMs' startMs' ordinal' name h₀' h₁' ho' hstart' hname hname'
      rw [floorToWindowMs_eq hw hw' h₀'] at hstart'
      obtain rfl := Option.some.inj hstart'
      obtain ⟨hs₀', hs₁'⟩ := floor_bounds hw h₀' h₁'
      obtain ⟨hlabel, hordinal⟩ := name_label hs₀ hs₁ ho hs₀' hs₁' ho' hname hname'
      exact ⟨startMs_eq_of_label hdvd hle (Dvd.intro_left _ rfl) (Dvd.intro_left _ rfl) hlabel, hordinal.symm⟩
    · intro maxBytes name w w' env nowMs' hname hactive hopen hstart'
      obtain rfl : name₀ = name := Except.ok.inj (hname₀.symm.trans hname)
      have hhandle := hopen.post (wp_reopen_active hactive hparse₀) rfl
      refine (@eval_inCurrentWindow w' (.timeWindow window maxBytes) _ _ _ nowMs' hhandle hstart' env).trans ?_
      simp

/-- Windows of one hour, with the seventh file of the second hour. -/
theorem standsFor_iff_hour : ∃ startMs, floorToWindowMs 5000000 (.fromSecs 3600 (by decide)) = some startMs ∧
    StandsFor (.fromSecs 3600 (by decide)) startMs (some 7) :=
  (@standsFor_iff (.fromSecs 3600 (by decide)) (some 7) 5000000 (by decide) (by decide) (by decide)
    (by decide) (by rintro _ ⟨⟩; decide)).2 ⟨by decide, by decide⟩

/-- The second window of 90 seconds starts half a minute after the minute that its label names. -/
theorem not_standsFor_ninetySeconds :
    ¬∃ startMs, floorToWindowMs 90000 (.fromSecs 90 (by decide)) = some startMs ∧
      RoundTrips startMs (.fromSecs 90 (by decide)) none := by
  rintro ⟨startMs, hstart, h⟩
  rw [floorToWindowMs_eq (by decide) (by decide) (by decide)] at hstart
  obtain rfl := Option.some.inj hstart
  have hdvd := (roundTrips_iff (by decide) (by decide) (by simp)).1 h
  exact absurd hdvd (by decide)

end Main

end Events
