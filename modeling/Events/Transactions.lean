import Events.Connection

/-!
# The two transactions

`appendOnConnection` either commits the whole batch, with the versions that follow the append head
of the file in the order of the batch and the head moved to the last of them, or leaves the
database as it was, whichever statement fails and however. `replaceRangesOnConnection` replaces the
ranges of the catalog, or leaves it as it was.

* **`envelopesFrom`** — the envelopes of a batch.
* **`AppendCommitted`**, **`AppendRefused`** — the two outcomes of an append.
* **`wp_appendOnConnection`**, **`wp_replaceRangesOnConnection`** — the transactions are atomic.
-/

namespace Events

open Proc Program Tx

/-- The failures that do not come from the statements themselves. -/
def isStorageFault (e : DbError) : Prop := ∃ message, e = .storage message

/-- The envelopes of a batch onto the head `head`, from index `i` on. -/
def envelopesFrom (ids : Nat → Uuid) (span : SpanContext) (baseTime : OffsetDateTime)
    (baseSequence head : Int) : Nat → List NewEvent → List EventEnvelope
  | _, [] => []
  | i, event :: events =>
    envelopeOf ids span baseTime baseSequence ⟨head + 1 + i⟩ i event ::
      envelopesFrom ids span baseTime baseSequence head (i + 1) events

/-- The versions `head + 1` to `head + n`. -/
def versionsFrom (head : Int) : Nat → List Int
  | 0 => []
  | n + 1 => (head + 1) :: versionsFrom (head + 1) n

section Envelopes

variable {ids : Nat → Uuid} {span : SpanContext} {baseTime : OffsetDateTime}
  {baseSequence head : Int}

@[simp] theorem length_envelopesFrom (i : Nat) (events : List NewEvent) :
    (envelopesFrom ids span baseTime baseSequence head i events).length = events.length := by
  induction events generalizing i with
  | nil => rfl
  | cons event events ih => simp [envelopesFrom, ih]

/-- A batch gets consecutive versions in the order of its events. -/
theorem version_envelopesFrom (i : Nat) (events : List NewEvent) :
    (envelopesFrom ids span baseTime baseSequence head i events).map (fun e => e.version.get) =
      versionsFrom (head + i) events.length := by
  induction events generalizing i with
  | nil => rfl
  | cons event events ih =>
    have hhead : head + (i : Int) + 1 = head + (i + 1 : Nat) := by omega
    rw [envelopesFrom, List.map_cons, ih, List.length_cons, versionsFrom, hhead]
    congr 1
    show head + 1 + (i : Int) = head + (i + 1 : Nat)
    omega

theorem createdAt_envelopesFrom {i : Nat} {events : List NewEvent} {e : EventEnvelope}
    (h : e ∈ envelopesFrom ids span baseTime baseSequence head i events) :
    e.createdAt = baseTime := by
  induction events generalizing i with
  | nil => cases h
  | cons event events ih =>
    rcases List.mem_cons.1 h with rfl | h
    · rfl
    · exact ih h

end Envelopes

/-- The batch is committed: onto the head `head`, which the expected version admits. -/
structure AppendCommitted (ids : Nat → Uuid) (span : SpanContext) (expected : ExpectedVersion)
    (events : List NewEvent) (baseTime : OffsetDateTime) (d d' : Db) (head : Int)
    (result : AppendResult) : Prop where
  head_eq : d.headVersion = some head
  admitted : validateExpectedVersionAgainst expected head = .ok head
  nonempty : events ≠ []
  first : result.firstVersion = ⟨head + 1⟩
  last : result.lastVersion = ⟨head + events.length⟩
  positive : 0 ≤ head
  events_eq : ∃ baseSequence, result.events = envelopesFrom ids span baseTime baseSequence head 0 events
  db_eq : ∃ id, d' = { d with
    events := some (d.rows ++ result.events.map EventEnvelope.toRow)
    head := some (some ⟨head + events.length, id⟩) }

/-- The batch is refused with the error `err`. A wrong version is reported where the head is not the
expected one, or where the file stores a version above its head. -/
def AppendRefused (expected : ExpectedVersion) (d d' : Db) (err : EsError) : Prop :=
  d' = d ∧ ∀ ex ac, err = .incorrectEventVersion ex ac → ∃ head, d.headVersion = some head ∧
    (validateExpectedVersionAgainst expected head = .error err ∨ ∃ row ∈ d.rows, head < row.version)

/-! ## The steps of the transaction -/

section Steps

variable {d t : Db} {α : Type} {Q : Except EsError α → Conn sqlDialect → Prop}

theorem wp_execute {s : Stmt} {Q : Except EsError s.Ans → Conn sqlDialect → Prop}
    (hok : ∀ a t', s.exec t = .ok (a, t') → Q (.ok a) ⟨d, some t'⟩)
    (herr : ∀ e, s.exec t = .error e ∨ isStorageFault e → Q (.error (.db e)) ⟨d, some t⟩) :
    wp (faulty isStorageFault) (execute s) Q ⟨d, some t⟩ :=
  wp_stmt hok herr

theorem wp_rollbackWith {fault : DbError → Prop} {e : EsError}
    (h : ∀ t', Q (.error e) ⟨d, t'⟩) : wp (faulty fault) (rollbackWith e) Q ⟨d, some t⟩ :=
  wp_rollback fun _ t' => h t'

theorem validateExpectedVersionAgainst_ok {expected : ExpectedVersion} {head v : Int}
    (h : validateExpectedVersionAgainst expected head = .ok v) : v = head := by
  unfold validateExpectedVersionAgainst at h
  cases expected with
  | noStream =>
    simp only at h
    split at h
    · cases h
    · cases h; rfl
  | any => cases h; rfl
  | exact version =>
    simp only at h
    split at h
    · cases h
    · split at h
      · cases h
      · cases h; rfl

/-- The check reads the head and compares it; a failed check ends the transaction. -/
theorem wp_checkHead {expected : ExpectedVersion} {Q : Except EsError Int → Conn sqlDialect → Prop}
    (hok : ∀ head, t.headVersion = some head →
      validateExpectedVersionAgainst expected head = .ok head → Q (.ok head) ⟨d, some t⟩)
    (herr : ∀ e t', (∀ ex ac, e = .incorrectEventVersion ex ac → ∃ head, t.headVersion = some head ∧
      validateExpectedVersionAgainst expected head = .error e) → Q (.error e) ⟨d, t'⟩) :
    wp (faulty isStorageFault) (checkHead expected) Q ⟨d, some t⟩ := by
  unfold checkHead
  rw [wp_bind, wp_attempt, wp_bind]
  refine wp_execute (fun row t' hrow => ?_) fun e _ => ?_
  · obtain ⟨hhead, rfl⟩ := Stmt.exec_readHead.1 hrow
    cases row with
    | none => exact wp_rollbackWith fun t' => herr _ t' (by simp)
    | some row =>
      have hv : t.headVersion = some row.currentVersion := by simp [Db.headVersion, hhead]
      simp only [wp_done, headOfRow]
      cases hval : validateExpectedVersionAgainst expected row.currentVersion with
      | ok v =>
        obtain rfl := validateExpectedVersionAgainst_ok hval
        exact hok _ hv hval
      | error e => exact wp_rollbackWith fun t' => herr e t' fun _ _ _ => ⟨_, hv, hval⟩
  · exact wp_rollbackWith fun t' => herr _ t' (by simp)

/-- The inserts put the envelopes behind the rows that are there. A version is found taken only if
it was so before the transaction. -/
theorem wp_insertEventsFrom {ids : Nat → Uuid} {span : SpanContext} {baseTime : OffsetDateTime}
    {baseSequence head : Int} {old rows : List EventRow} (i : Nat) (events : List NewEvent)
    (ht : t.events = some rows) (hrows : ∀ row ∈ rows, row ∈ old ∨ row.version ≤ head + i)
    {Q : Except EsError (List EventEnvelope) → Conn sqlDialect → Prop}
    (hok : (events ≠ [] → 0 ≤ head + i) →
      Q (.ok (envelopesFrom ids span baseTime baseSequence head i events))
        ⟨d, some { t with events := some (rows ++
          (envelopesFrom ids span baseTime baseSequence head i events).map EventEnvelope.toRow) }⟩)
    (herr : ∀ e t', (∀ ex ac, e ≠ .incorrectEventVersion ex ac) →
      (e = .db (.uniqueConstraint "events.version") → ∃ row ∈ old, head < row.version) →
      Q (.error e) ⟨d, some t'⟩) :
    wp (faulty isStorageFault)
      (insertEventsFrom ids span head baseTime baseSequence i events) Q ⟨d, some t⟩ := by
  induction events generalizing i t rows Q with
  | nil =>
    have hself : { t with events := some (rows ++ []) } = t := by
      rw [List.append_nil, ← ht]
    have := hok (by simp)
    rw [envelopesFrom, List.map_nil, hself] at this
    exact this
  | cons event events ih =>
    rw [insertEventsFrom]
    -- the version of the event at index `i`, which has to be positive
    by_cases hpos : head + 1 + (i : Int) ≤ 0
    · simp only [EventStreamVersion.new, if_pos hpos, wp_done]
      exact herr _ _ (by simp) (by simp)
    · have hnew := @EventStreamVersion.new_ok (head + 1 + (i : Int)) (by omega)
      simp only [hnew]
      rw [wp_bind]
      refine wp_execute (fun _ t' hins => ?_) fun e he => herr _ _ (by simp) fun hdb => ?_
      · obtain ⟨rows', hrows', -, rfl⟩ := Stmt.exec_insertEvent.1 hins
        obtain rfl : rows = rows' := by simpa [ht] using hrows'
        simp only [wp_bind]
        refine ih (i + 1) rfl ?_ (fun hne => ?_) herr
        · -- the batch so far is below the next version
          intro row hrow
          rcases List.mem_append.1 hrow with hrow | hrow
          · exact (hrows row hrow).imp_right fun h => by push_cast; omega
          · obtain rfl := List.mem_singleton.1 hrow
            right
            show head + 1 + (i : Int) ≤ head + (i + 1 : Nat)
            push_cast
            omega
        · have := hok fun _ => by omega
          simpa [envelopesFrom] using this
      · -- the insert itself found the version: it is an old row's, the batch being below it
        have hex : (Stmt.insertEvent (envelopeOf ids span baseTime baseSequence
            ⟨head + 1 + i⟩ i event).toRow).exec t = .error (.uniqueConstraint "events.version") := by
          rcases he with he | ⟨m, rfl⟩
          · rw [he]; simpa using hdb
          · simp at hdb
        obtain ⟨row, hrow, hver⟩ := Stmt.exec_insertEvent_version hex
        obtain ⟨hrow, hmem⟩ : ∃ h : t.events = some rows, row ∈ rows := ⟨ht, by simpa [ht] using hrow⟩
        have hv : row.version = head + 1 + (i : Int) := hver
        rcases hrows row hmem with h | h
        · exact ⟨row, h, by omega⟩
        · omega

/-- The end of the transaction: the head moves to the last envelope. -/
theorem wp_finishAppend {first last : EventEnvelope} {resultEvents : List EventEnvelope}
    {Q : Except EsError AppendResult → Conn sqlDialect → Prop} (hhead : t.headVersion.isSome)
    (hfirst : resultEvents.head? = some first) (hlast : resultEvents.getLast? = some last)
    (hle : ∀ head, t.headVersion = some head → head ≤ last.version.get)
    (hok : Q (.ok ⟨first.version, last.version, resultEvents⟩)
      ⟨{ t with head := some (some ⟨last.version.get, some last.id⟩) }, none⟩)
    (herr : ∀ e t', (∀ ex ac, e ≠ .incorrectEventVersion ex ac) → Q (.error e) ⟨d, t'⟩) :
    wp (faulty isStorageFault) (finishAppend resultEvents) Q ⟨d, some t⟩ := by
  unfold finishAppend
  simp only [hfirst, hlast]
  rw [wp_bind, wp_attempt]
  refine wp_execute (fun _ t' hupd => ?_) fun e _ => wp_rollbackWith fun t' => herr _ t' (by simp)
  obtain ⟨row, hrow, rfl⟩ := Stmt.exec_updateHead.1 hupd
  obtain ⟨row, rfl⟩ : ∃ r, row = some r := by
    cases row with
    | none => simp [Db.headVersion, hrow] at hhead
    | some r => exact ⟨r, rfl⟩
  have hrowle : row.currentVersion ≤ last.version.get := hle _ (by simp [Db.headVersion, hrow])
  simp only [Option.map_some, if_pos hrowle]
  rw [wp_bind, wp_attempt]
  refine wp_commit hok fun e _ => ?_
  exact wp_rollbackWith fun t' => herr _ t' (by simp)

end Steps

theorem getLast?_envelopesFrom {ids : Nat → Uuid} {span : SpanContext} {baseTime : OffsetDateTime}
    {baseSequence head : Int} (i : Nat) {events : List NewEvent} (h : events ≠ []) :
    ∃ last, (envelopesFrom ids span baseTime baseSequence head i events).getLast? = some last ∧
      last.version = ⟨head + i + events.length⟩ := by
  induction events generalizing i with
  | nil => exact absurd rfl h
  | cons event events ih =>
    cases events with
    | nil =>
      refine ⟨_, rfl, ?_⟩
      show EventStreamVersion.mk (head + 1 + i) = ⟨head + i + 1⟩
      congr 1
      omega
    | cons event' events =>
      obtain ⟨last, hlast, hver⟩ := ih (i + 1) (by simp)
      refine ⟨last, ?_, ?_⟩
      · rw [envelopesFrom, envelopesFrom, List.getLast?_cons_cons, ← envelopesFrom]
        exact hlast
      · rw [hver]
        congr 1
        simp only [List.length_cons]
        push_cast
        omega

/-- **The append transaction is atomic**: it commits the batch onto the head, or refuses it and
changes nothing. -/
theorem wp_appendOnConnection {ids : Nat → Uuid} {span : SpanContext} {expected : ExpectedVersion}
    {events : List NewEvent} {baseTime : OffsetDateTime} {d : Db} :
    wp (faulty isStorageFault) (appendOnConnection ids span expected events baseTime)
      (fun r c => match r with
        | .ok result =>
          ∃ head, AppendCommitted ids span expected events baseTime d c.db head result
        | .error err => AppendRefused expected d c.db err) ⟨d, none⟩ := by
  unfold appendOnConnection
  rw [wp_bind]
  refine wp_begin ?_ fun e _ => ⟨rfl, by simp⟩
  show wp _ ((checkHead expected).bind _) _ _
  rw [wp_bind]
  refine wp_checkHead (fun head hhead hval => ?_) fun e t' he => ⟨rfl, fun ex ac h => ?_⟩
  swap
  · obtain ⟨head, hhead, hval⟩ := he ex ac h
    exact ⟨head, hhead, .inl hval⟩
  simp only [insertEvents]
  rw [wp_bind, wp_attempt, wp_bind]
  refine wp_execute (fun baseSequence t' hseq => ?_) fun e he => ?_
  · obtain ⟨rows, hrows, -, rfl⟩ := Stmt.exec_maxSequence.1 hseq
    refine wp_insertEventsFrom 0 events hrows (fun row hrow => .inl hrow) (fun hpos => ?_)
      fun e t' hne' hdb => ?_
    · by_cases hne : events = []
      · subst hne
        exact ⟨rfl, by simp⟩
      obtain ⟨last, hlast, hver⟩ : ∃ last,
          (envelopesFrom ids span baseTime baseSequence head 0 events).getLast? = some last ∧
            last.version = ⟨head + (0 : Nat) + events.length⟩ := getLast?_envelopesFrom 0 hne
      obtain ⟨event, events', rfl⟩ := List.exists_cons_of_ne_nil hne
      refine wp_finishAppend ?_ rfl hlast ?_ ?_ ?_
      · show d.headVersion.isSome
        rw [hhead]
        rfl
      · intro head' hhead'
        have : head' = head := by simpa [Db.headVersion, hhead] using hhead'.symm.trans hhead
        rw [hver, this]
        simp only
        omega
      · refine ⟨head, hhead, hval, hne, by simp [envelopeOf], ?_, by simpa using hpos hne,
          ⟨baseSequence, rfl⟩, ?_⟩
        · show last.version = _
          rw [hver]
          simp
        · refine ⟨some last.id, ?_⟩
          simp [hver, Db.rows, hrows]
      · exact fun e t' he => ⟨rfl, fun ex ac h => absurd h (he ex ac)⟩
    · refine wp_rollbackWith fun t'' => ⟨rfl, fun ex ac h => ⟨head, hhead, .inr ?_⟩⟩
      unfold mapUniquenessToIncorrectEventVersion at h
      split at h
      · obtain ⟨row, hrow, hlt⟩ := hdb rfl
        exact ⟨row, by simpa [Db.rows, hrows] using hrow, hlt⟩
      · exact absurd h (hne' ex ac)
  · refine wp_rollbackWith fun t'' => ⟨rfl, fun ex ac h => ?_⟩
    -- reading the sequence cannot break a uniqueness constraint
    unfold mapUniquenessToIncorrectEventVersion at h
    split at h
    · rename_i hdb
      obtain rfl : e = .uniqueConstraint "events.version" := by simpa using hdb
      rcases he with he | ⟨m, hm⟩
      · cases hd : d.events <;>
        simp [Stmt.exec, Stmt.need, hd, Bind.bind, Except.bind, pure, Except.pure] at he
      · cases hm
    · cases h

/-! ## Replacing the ranges -/

section Replace

variable {fault : DbError → Prop} {d t : Db} {ranges : List EventFileRange}

/-- The inserts put the ranges behind those that are there, unless a name comes twice. -/
theorem wp_insertRanges {rs : List EventFileRange} {Q : Except EsError Unit → Conn sqlDialect → Prop}
    (ht : t.ranges = some rs)
    (hok : Q (.ok ()) ⟨d, some { t with ranges := some (rs ++ ranges) }⟩)
    (herr : ∀ e t', (∃ x, fault x) ∨ ¬((rs ++ ranges).map EventFileRange.name).Nodup →
      Q (.error e) ⟨d, t'⟩) :
    wp (faulty fault) (insertRanges ranges) Q ⟨d, some t⟩ := by
  induction ranges generalizing t rs with
  | nil =>
    have hself : { t with ranges := some (rs ++ []) } = t := by rw [List.append_nil, ← ht]
    rw [hself] at hok
    exact hok
  | cons range ranges ih =>
    have hassoc : rs ++ range :: ranges = rs ++ [range] ++ ranges := by simp
    rw [hassoc] at hok herr
    rw [insertRanges, wp_bind, wp_attempt]
    refine wp_stmt (fun a t' hex => ?_) fun e he => ?_
    · obtain ⟨-, rfl⟩ := (Stmt.exec_insertRange ht).1 hex
      exact ih rfl hok herr
    · refine wp_rollbackWith fun t' => herr _ t' ?_
      rcases he with he | he
      · right
        obtain ⟨r, hr, hname⟩ := Stmt.exec_insertRange_error ht he
        rw [List.map_append, List.map_append]
        intro hnd
        have := (List.nodup_append.1 hnd.of_append_left).2.2
        exact this _ (List.mem_map_of_mem hr) _ (by simp) hname
      · exact .inl ⟨e, he⟩

/-- **The replacement of the ranges is atomic.** -/
theorem wp_replaceRangesOnConnection :
    wp (faulty fault) (replaceRangesOnConnection ranges)
      (fun r c => match r with
        | .ok () => d.ranges ≠ none ∧ c.db = { d with ranges := some ranges }
        | .error _ => c.db = d ∧ ((∃ x, fault x) ∨ d.ranges = none ∨
            ¬(ranges.map EventFileRange.name).Nodup)) ⟨d, none⟩ := by
  unfold replaceRangesOnConnection
  rw [wp_bind]
  refine wp_begin ?_ fun e he => ⟨rfl, .inl ⟨e, he⟩⟩
  show wp _ ((execute _).attempt.bind _) _ _
  rw [wp_bind, wp_attempt]
  refine wp_stmt (fun a t' hex => ?_) fun e he => wp_rollbackWith fun t' => ⟨rfl, ?_⟩
  · obtain ⟨hrs, rfl⟩ := Stmt.exec_deleteRanges.1 hex
    show wp _ ((insertRanges ranges).bind _) _ _
    rw [wp_bind]
    refine wp_insertRanges rfl ?_ fun e t' he => ⟨rfl, he.imp_right .inr⟩
    show wp _ (commit.attempt.bind _) _ _
    rw [wp_bind, wp_attempt]
    exact wp_commit ⟨hrs, rfl⟩ fun e he => wp_rollbackWith fun t' => ⟨rfl, .inl ⟨e, he⟩⟩
  · rcases he with he | he
    · exact .inr (.inl (Stmt.exec_deleteRanges_error he))
    · exact .inl ⟨e, he⟩

end Replace

end Events
