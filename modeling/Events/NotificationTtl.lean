import Events.Notifications
import Events.Rotation

/-!
# The time to live of a notification

`record` takes the time to live in whole seconds, casts them to `i64` and adds them to a clock that
counts whole seconds; `get` and `cleanup` compare the sum with such a clock again. No value of the time to
live is refused.

* **`TtlSound`** — the arithmetic is exact, the event is returned for as long as it lives, and a longer
  life is visible for no shorter time.
* **`rowOf_recorded`** — the calls behind a recording keep its row while it lives.
* **`ttlSound_iff`** — so it is while the sum fits, for whole seconds at whole seconds.
-/

namespace Events.Notifications

/-! ## The row of a recorded event -/

section Recorded

variable {serde : Serde} {ttl : Nat} {event : StreamEvent} {requestId : Text} {recordedAt t : Int}
  {table : List Row} {before after : List Call} {r : Row}

/-- The calls do not record another event for the request, and do not read a later time. -/
def Quiet (requestId : Text) (t : Int) (calls : List Call) : Prop :=
  ∀ call ∈ calls, call.now ≤ t ∧ ∀ event now, call = .record event now → event.requestId ≠ requestId

theorem Quiet.tail {call : Call} {calls : List Call} (h : Quiet requestId t (call :: calls)) :
    Quiet requestId t calls := fun c hc => h c (List.mem_cons_of_mem _ hc)

theorem ids_runCalls (serde : Serde) (ttl : Nat) (calls : List Call) :
    ((runCalls serde ttl calls).map Row.requestId).Nodup := by
  induction calls using List.reverseRecOn with
  | nil => exact .nil
  | append_singleton calls call ih =>
    unfold runCalls at ih ⊢
    rw [List.foldl_append]
    exact ids_step ih call

/-- One such call keeps the row, or deletes it behind its expiry. -/
theorem rowOf_step (hids : (table.map Row.requestId).Nodup) {call : Call}
    (hother : ∀ event now, call = .record event now → event.requestId ≠ requestId) :
    rowOf requestId (step serde ttl table call) = rowOf requestId table ∨
      rowOf requestId (step serde ttl table call) = none ∧
        ∀ r, rowOf requestId table = some r → r.expiresAt < call.now := by
  cases call with
  | get _ _ => exact .inl rfl
  | record e now =>
    left
    show rowOf requestId (upsert (row serde ttl e now) table) = _
    rw [rowOf_upsert]
    exact if_neg (hother e now rfl)
  | cleanup now =>
    show rowOf requestId (cleanup now table).2 = _ ∨ rowOf requestId (cleanup now table).2 = none ∧ _
    rw [rowOf_cleanup hids]
    cases hrow : rowOf requestId table with
    | none => exact .inl rfl
    | some r =>
      by_cases hover : r.expiresAt < now
      · refine .inr ⟨by simp [Option.filter, hover], fun r' hr' => ?_⟩
        rwa [← Option.some.inj hr']
      · exact .inl (by simp [Option.filter, hover])

/-- By induction on the calls behind the recording. -/
theorem rowOf_quiet (hids : (table.map Row.requestId).Nodup) (hrow : rowOf requestId table = some r)
    (hquiet : Quiet requestId t after) :
    rowOf requestId (after.foldl (step serde ttl) table) = some r ∨
      rowOf requestId (after.foldl (step serde ttl) table) = none ∧ r.expiresAt < t := by
  -- a row that is gone stays away
  have hgone : ∀ {calls table}, (table.map Row.requestId).Nodup → rowOf requestId table = none →
      Quiet requestId t calls → rowOf requestId (calls.foldl (step serde ttl) table) = none := by
    intro calls
    induction calls with
    | nil => exact fun _ hnone _ => hnone
    | cons call calls ih =>
      intro table hids hnone hquiet
      apply ih (ids_step hids call) _ hquiet.tail
      rcases @rowOf_step serde ttl _ _ hids call (hquiet call List.mem_cons_self).2 with
        hsame | ⟨hdeleted, -⟩
      · rw [hsame, hnone]
      · exact hdeleted
  induction after generalizing table with
  | nil => exact .inl hrow
  | cons call after ih =>
    obtain ⟨hnow, hother⟩ := hquiet call List.mem_cons_self
    rw [List.foldl_cons]
    have hnext : ((step serde ttl table call).map Row.requestId).Nodup := ids_step hids call
    rcases @rowOf_step serde ttl _ _ hids call hother with hsame | ⟨hdeleted, hover⟩
    · exact ih hnext (hsame.trans hrow) hquiet.tail
    · exact .inr ⟨hgone hnext hdeleted hquiet.tail, lt_of_lt_of_le (hover r hrow) hnow⟩

/-- The row that a recording leaves, behind calls that do not record for the request. -/
theorem rowOf_recorded (hquiet : Quiet event.requestId t after) :
    rowOf event.requestId (runCalls serde ttl (before ++ .record event recordedAt :: after)) =
        some (row serde ttl event recordedAt) ∨
      rowOf event.requestId (runCalls serde ttl (before ++ .record event recordedAt :: after)) = none ∧
        (row serde ttl event recordedAt).expiresAt < t := by
  unfold runCalls
  rw [List.foldl_append]
  apply rowOf_quiet (ids_step (ids_runCalls serde ttl before) _) _ hquiet
  show rowOf event.requestId (upsert (row serde ttl event recordedAt) _) = _
  rw [rowOf_upsert]
  exact if_pos rfl

/-- `get` returns the event if and only if the second of its expiry has not come. -/
theorem get_recorded_iff (hinv : serde.Inverts event) (hquiet : Quiet event.requestId t after) :
    get serde event.requestId t (runCalls serde ttl (before ++ .record event recordedAt :: after)) =
      .ok (some event) ↔ t < (row serde ttl event recordedAt).expiresAt := by
  have hrow := @rowOf_recorded serde ttl event recordedAt t before after hquiet
  unfold get
  rw [find_unexpired (ids_runCalls ..)]
  rcases hrow with hrow | ⟨hnone, hover⟩
  · rw [hrow]
    by_cases hfresh : t < (row serde ttl event recordedAt).expiresAt
    · have hdecode := eventFromRow_row hinv ttl recordedAt
      simp [Option.filter, hfresh, hdecode, Except.map]
    · simp [Option.filter, hfresh]
  · rw [hnone]
    simp only [Option.filter]
    exact ⟨fun h => (by cases h), fun h => absurd (lt_trans hover h) (lt_irrefl _)⟩

end Recorded

/-! ## Sound arithmetic -/

/-- The arithmetic of a time to live, for a record made at `recorded`. -/
structure TtlSound (ttl : Duration) (recorded : OffsetDateTime) : Prop where
  /-- Neither the cast nor the sum leaves `i64`. -/
  exact : toI64 ttl.asSecs = ttl.asSecs ∧
    toI64 (recorded.unixTimestamp + toI64 ttl.asSecs) = recorded.unixTimestamp + toI64 ttl.asSecs
  /-- The event is returned for as long as it lives. -/
  returned : ∀ (serde : Serde) event before after (t : OffsetDateTime), serde.Inverts event →
    Quiet event.requestId t.unixTimestamp after →
    recorded.unixTimestampNanos ≤ t.unixTimestampNanos →
    t.unixTimestampNanos - recorded.unixTimestampNanos < ttl.asNanos →
    get serde event.requestId t.unixTimestamp
      (runCalls serde ttl.asSecs (before ++ .record event recorded.unixTimestamp :: after)) =
        .ok (some event)
  /-- What is visible under a shorter life is visible under this one. -/
  monotone : ∀ ttl' : Duration, ttl'.asNanos ≤ ttl.asNanos →
    ∀ (serde : Serde) event before after (t : OffsetDateTime), serde.Inverts event →
    Quiet event.requestId t.unixTimestamp after →
    get serde event.requestId t.unixTimestamp
      (runCalls serde ttl'.asSecs (before ++ .record event recorded.unixTimestamp :: after)) =
        .ok (some event) →
    get serde event.requestId t.unixTimestamp
      (runCalls serde ttl.asSecs (before ++ .record event recorded.unixTimestamp :: after)) =
        .ok (some event)

/-- The end of the last second that the clock can show. -/
def lastSecond : Int := 253402300800

/-- The sum fits `i64`, and either nothing is cut off, of the time to live or of the clock, or the expiry is
beyond the clock. -/
def TtlFits (ttl : Duration) (recorded : OffsetDateTime) : Prop :=
  ttl.asSecs < 2 ^ 63 ∧ recorded.unixTimestamp + ttl.asSecs < 2 ^ 63 ∧
    (ttl.subsecNanos = 0 ∧ recorded.unixTimestampNanos % 1000000000 = 0 ∨
      lastSecond ≤ recorded.unixTimestamp + ttl.asSecs)

instance (ttl : Duration) (recorded : OffsetDateTime) : Decidable (TtlFits ttl recorded) :=
  inferInstanceAs (Decidable (_ ∧ _ ∧ _))

section Sound

variable {ttl : Duration} {recorded t : OffsetDateTime}

theorem toI64_eq_iff {i : Int} (hlow : -2 ^ 63 ≤ i) : toI64 i = i ↔ i < 2 ^ 63 := by
  unfold toI64
  constructor
  · intro h
    rw [← h]
    exact BitVec.toInt_lt
  · intro h
    rw [BitVec.toInt_ofInt]
    exact Int.bmod_eq_of_le (by omega) (by omega)

theorem secs_bounds (t : OffsetDateTime) :
    -377705116800 ≤ t.unixTimestamp ∧ t.unixTimestamp < lastSecond := by
  have hlower := t.lower
  have hupper := t.upper
  simp only [minNanos, supNanos] at hlower hupper
  unfold OffsetDateTime.unixTimestamp lastSecond
  omega

/-- The arithmetic is exact while the sum fits. -/
theorem exact_iff : (toI64 ttl.asSecs = ttl.asSecs ∧
    toI64 (recorded.unixTimestamp + toI64 ttl.asSecs) = recorded.unixTimestamp + toI64 ttl.asSecs) ↔
      ttl.asSecs < 2 ^ 63 ∧ recorded.unixTimestamp + ttl.asSecs < 2 ^ 63 := by
  have hsecs := (secs_bounds recorded).1
  rw [toI64_eq_iff (by omega)]
  constructor
  · rintro ⟨hcast, hsum⟩
    have hcast' := (toI64_eq_iff (by omega)).2 hcast
    rw [hcast', toI64_eq_iff (by omega)] at hsum
    exact ⟨by exact_mod_cast hcast, hsum⟩
  · rintro ⟨hcast, hsum⟩
    have hcast' : toI64 ttl.asSecs = ttl.asSecs := (toI64_eq_iff (by omega)).2 (by exact_mod_cast hcast)
    rw [hcast', toI64_eq_iff (by omega)]
    exact ⟨by exact_mod_cast hcast, hsum⟩

theorem expiresAt_eq {serde : Serde} {event : StreamEvent} {recordedAt : Int} {ttl : Nat}
    (hlow : -2 ^ 63 ≤ recordedAt) (hhigh : recordedAt + ttl < 2 ^ 63) :
    (row serde ttl event recordedAt).expiresAt = recordedAt + ttl :=
  (toI64_eq_iff (by omega)).2 hhigh

/-- While the sum fits, a record lives until the second of its expiry. -/
theorem get_fitting_iff {serde : Serde} {event : StreamEvent} {before after : List Call}
    (hsum : recorded.unixTimestamp + ttl.asSecs < 2 ^ 63) (hinv : serde.Inverts event)
    (hquiet : Quiet event.requestId t.unixTimestamp after) :
    get serde event.requestId t.unixTimestamp
      (runCalls serde ttl.asSecs (before ++ .record event recorded.unixTimestamp :: after)) =
        .ok (some event) ↔ t.unixTimestamp < recorded.unixTimestamp + ttl.asSecs := by
  have hsecs := (secs_bounds recorded).1
  rw [get_recorded_iff hinv hquiet, expiresAt_eq (by omega) hsum]

theorem asSecs_le {ttl' : Duration} (h : ttl'.asNanos ≤ ttl.asNanos) : ttl'.asSecs ≤ ttl.asSecs := by
  have hnanos := ttl.nanos_lt
  unfold Duration.asNanos at h
  omega

/-- A record that lives for whole seconds from a whole second, or beyond the clock, lives long enough. -/
theorem TtlFits.lives (h : TtlFits ttl recorded)
    (hlife : t.unixTimestampNanos - recorded.unixTimestampNanos < ttl.asNanos) :
    t.unixTimestamp < recorded.unixTimestamp + ttl.asSecs := by
  rcases h.2.2 with ⟨hsub, hwhole⟩ | hbeyond
  · unfold Duration.asNanos at hlife
    unfold OffsetDateTime.unixTimestamp
    omega
  · exact lt_of_lt_of_le (secs_bounds t).2 hbeyond

/-- Otherwise there is a time at which it should live, in the second of its expiry or behind it. -/
theorem exists_cutOff (hpos : 0 < ttl.asNanos)
    (hcut : ¬(ttl.subsecNanos = 0 ∧ recorded.unixTimestampNanos % 1000000000 = 0))
    (hclock : recorded.unixTimestamp + ttl.asSecs < lastSecond) :
    ∃ t : OffsetDateTime, recorded.unixTimestampNanos ≤ t.unixTimestampNanos ∧
      t.unixTimestampNanos - recorded.unixTimestampNanos < ttl.asNanos ∧
      recorded.unixTimestamp + ttl.asSecs ≤ t.unixTimestamp := by
  have hlower := recorded.lower
  unfold Duration.asNanos at hpos ⊢
  by_cases hsecs : ttl.asSecs = 0
  · -- below a second: not even at the time of the record
    refine ⟨recorded, le_refl _, by omega, ?_⟩
    rw [hsecs]
    simp
  · -- the first moment of the second of the expiry
    unfold OffsetDateTime.unixTimestamp lastSecond at hclock
    simp only [minNanos] at hlower
    refine ⟨⟨(recorded.unixTimestampNanos / 1000000000 + ttl.asSecs) * 1000000000, ?_, ?_⟩, ?_, ?_, ?_⟩
    · simp only [minNanos]
      omega
    · simp only [supNanos]
      omega
    · show recorded.unixTimestampNanos ≤ (_ + _) * 1000000000
      omega
    · show (_ + _) * 1000000000 - recorded.unixTimestampNanos < _
      omega
    · show recorded.unixTimestampNanos / 1000000000 + _ ≤ (_ + _) * 1000000000 / 1000000000
      omega

end Sound

theorem inverts_finishedImport : nullSerde.Inverts finishedImport :=
  ⟨by rintro p ⟨⟩; rfl, _, rfl, rfl⟩

/-- **The arithmetic of a time to live is sound** if and only if the sum fits and nothing is cut off before
the clock ends. -/
theorem ttlSound_iff {ttl : Duration} {recorded : OffsetDateTime} (hpos : 0 < ttl.asNanos) :
    TtlSound ttl recorded ↔ TtlFits ttl recorded := by
  constructor
  · intro h
    obtain ⟨hcast, hsum⟩ := exact_iff.1 h.exact
    refine ⟨hcast, hsum, ?_⟩
    by_contra hcut
    rw [not_or] at hcut
    obtain ⟨t, hle, hlife, hover⟩ := exists_cutOff hpos hcut.1 (not_le.1 hcut.2)
    have hvisible := h.returned nullSerde finishedImport [] [] t inverts_finishedImport
      (fun c hc => by cases hc) hle hlife
    rw [get_fitting_iff hsum inverts_finishedImport fun c hc => by cases hc] at hvisible
    omega
  · intro h
    obtain ⟨hcast, hsum, -⟩ := id h
    refine { exact := exact_iff.2 ⟨hcast, hsum⟩, returned := ?_, monotone := ?_ }
    · intro serde event before after t hinv hquiet _ hlife
      exact (get_fitting_iff hsum hinv hquiet).2 (TtlFits.lives h hlife)
    · intro ttl' hle serde event before after t hinv hquiet hvisible
      have hsecs := asSecs_le hle
      rw [get_fitting_iff (by omega) hinv hquiet] at hvisible
      rw [get_fitting_iff hsum hinv hquiet]
      omega

/-- Five minutes, from the epoch. -/
theorem ttlSound_iff_fiveMinutes :
    0 < (Duration.fromSecs 300 (by decide)).asNanos ∧
      (TtlSound (.fromSecs 300 (by decide)) .unixEpoch ↔ TtlFits (.fromSecs 300 (by decide)) .unixEpoch) ∧
      TtlFits (.fromSecs 300 (by decide)) .unixEpoch :=
  ⟨by decide, ttlSound_iff (by decide), by decide⟩

/-- An event that is to live for half a second cannot be read in the moment it is recorded. -/
theorem not_ttlSound_halfSecond : ¬TtlSound ⟨0, 500000000, by decide, by decide⟩ .unixEpoch := by
  intro h
  have hvisible := h.returned nullSerde finishedImport [] [] .unixEpoch inverts_finishedImport
    (fun c hc => by cases hc) (le_refl _) (by decide)
  rw [get_fitting_iff (by decide) inverts_finishedImport fun c hc => by cases hc] at hvisible
  exact absurd hvisible (by decide)

end Events.Notifications
