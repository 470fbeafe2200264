import Events.WorkflowRuns

/-!
# Rotations that fail

`rotate_partition` writes the catalog, then the new file, then the catalog again and the memory last,
and returns at the first step that fails. It seals the range of the active file before it has a new
one: a failure up to the sealing leaves the store as it was, and any later one leaves the range of the
file that stays active sealed, so that a read may leave out what the next append commits to it.

* **`SealsFirst`** — the steps up to the sealing succeed.
* **`ActiveOpen`** — the range of the active file is open.
* **`activeOpen_iff`** — a rotation that fails keeps it so, in any state, iff it fails before.
* **`failed_rotation_iff`** — and so do the reads of what is appended next.
-/

namespace Events

open Proc Program

/-! ## A run, operation by operation -/

section Eval

variable {H : Type} [DecidableEq H] {h : H} {env : Nat → StoreEnv} {i : Nat} {w : World H} {α : Type}

/-- The active partition of an open handle is read. -/
theorem eval_readActive {f : ActivePartition → StoreProgram α} :
    eval (storeMachine h) env i (readActive.bind f) w =
      match w.handles h with
      | some (_, a) => eval (storeMachine h) env (i + 1) (f a) w
      | none => (.error .panic, w) := by
  show eval (storeMachine h) env (i + 1) (Program.bind (match (w.handles h).map Prod.snd with
    | some active => .done (.ok active)
    | none => .done (.error .panic)) f) w = _
  cases w.handles h <;> rfl

/-- A connection is there, or the program ends. -/
theorem eval_getConnection (env : Nat → StoreEnv) (ref : DbRef) {f : Unit → StoreProgram α} :
    ((w.db ref).isSome ∧ (env i).fault = none ∧
      eval (storeMachine h) env i ((getConnection ref).bind f) w =
        eval (storeMachine h) env (i + 1) (f ()) w) ∨
    ((w.db ref = none ∨ (env i).fault ≠ none) ∧
      ∃ err, eval (storeMachine h) env i ((getConnection ref).bind f) w = (.error err, w)) := by
  have hstep : eval (storeMachine h) env i ((getConnection ref).bind f) w =
      eval (storeMachine h) env (i + 1)
        ((orEs (World.step h (.getConnection ref) (env i) w).1).bind f)
        (World.step h (.getConnection ref) (env i) w).2 := rfl
  rw [hstep, step_passive (o := .getConnection ref) rfl]
  by_cases hdb : (w.db ref).isSome
  · cases hf : (env i).fault with
    | none =>
      simp only [World.step, if_pos hdb, dbFault, hf]
      exact .inl ⟨hdb, trivial, rfl⟩
    | some message =>
      simp only [World.step, if_pos hdb, dbFault, hf]
      exact .inr ⟨.inr (by simp), _, rfl⟩
  · simp only [World.step, if_neg hdb]
    exact .inr ⟨.inl (by simpa using hdb), _, rfl⟩

/-- A statement succeeds on the database, or the program ends. -/
theorem eval_sql (env : Nat → StoreEnv) {ref : DbRef} {s : Stmt} {f : s.Ans → StoreProgram α} {d : Db}
    (hdb : w.db ref = some d) :
    (∃ a d', s.exec d = .ok (a, d') ∧ (env i).fault = none ∧
      eval (storeMachine h) env i ((sql ref s).bind f) w =
        eval (storeMachine h) env (i + 1) (f a) (if s.isQuery then w else w.setDb ref d')) ∨
    (((∃ x, s.exec d = .error x) ∨ (env i).fault ≠ none) ∧
      ∃ err, eval (storeMachine h) env i ((sql ref s).bind f) w = (.error err, w)) := by
  have hstep : eval (storeMachine h) env i ((sql ref s).bind f) w =
      eval (storeMachine h) env (i + 1) ((orEs (w.stepSql ref s (env i)).1).bind f)
        (w.stepSql ref s (env i)).2 := rfl
  rw [hstep]
  unfold World.stepSql
  rw [hdb]
  cases hf : (env i).fault with
  | some message => exact .inr ⟨.inr (by simp), _, rfl⟩
  | none =>
    cases hex : s.exec d with
    | ok r => exact .inl ⟨r.1, r.2, rfl, rfl, by simp only [hex]; rfl⟩
    | error x => exact .inr ⟨.inl ⟨x, rfl⟩, _, by simp only [hex]; rfl⟩

/-- The append head of a file is read, or the program ends. -/
theorem eval_readHead (env : Nat → StoreEnv) (name : Text) {f : Int → StoreProgram α} :
    (∃ head, w.headOf name = some head ∧ (env i).fault = none ∧ (env (i + 1)).fault = none ∧
      eval (storeMachine h) env i ((getConnection (.eventFile name)).bind fun _ =>
          (readEventFileAppendHead name).bind f) w =
        eval (storeMachine h) env (i + 2) (f head) w) ∨
    ((w.headOf name = none ∨ (env i).fault ≠ none ∨ (env (i + 1)).fault ≠ none) ∧
      ∃ err, eval (storeMachine h) env i ((getConnection (.eventFile name)).bind fun _ =>
        (readEventFileAppendHead name).bind f) w = (.error err, w)) := by
  rcases eval_getConnection env (.eventFile name) (h := h) (i := i) (w := w)
    (f := fun _ => (readEventFileAppendHead name).bind f) with ⟨hdb, hf, heq⟩ | ⟨hwhy, herr⟩
  · obtain ⟨d, hd⟩ := Option.isSome_iff_exists.1 hdb
    have hlookup : w.files.lookup name = some d := hd
    rw [heq]
    unfold readEventFileAppendHead
    rw [bind_eq, bind_assoc]
    rcases eval_sql env (h := h) (i := i + 1) (s := .readEventFileAppendHead) hd
      (f := fun row => (ofExcept (headOfRow row)).bind f) with ⟨row, d', hex, hf', heq'⟩ | ⟨hwhy, herr⟩
    · obtain ⟨hhead, rfl⟩ := Stmt.exec_readHead.1 hex
      rw [heq']
      -- a file without its row of `stream_state` has no head to read
      cases row with
      | none => exact .inr ⟨.inl (by simp [World.headOf, hlookup, Db.headVersion, hhead]), _, rfl⟩
      | some row =>
        exact .inl ⟨row.currentVersion, by simp [World.headOf, hlookup, Db.headVersion, hhead], hf, hf',
          rfl⟩
    · refine .inr ⟨?_, herr⟩
      -- the statement fails by itself only where the table or the row is missing
      rcases hwhy with ⟨x, hx⟩ | hf'
      · cases hhead : d.head with
        | none => exact .inl (by simp [World.headOf, hlookup, Db.headVersion, hhead])
        | some row => rw [Stmt.exec_readHead.2 ⟨hhead, rfl⟩] at hx; cases hx
      · exact .inr (.inr hf')
  · refine .inr ⟨?_, herr⟩
    rcases hwhy with hnone | hf
    · have hlookup : w.files.lookup name = none := hnone
      exact .inl (by simp [World.headOf, hlookup])
    · exact .inr (.inl hf)

/-- The range of a file is sealed, or the program ends. -/
theorem eval_sealEventFileRange (env : Nat → StoreEnv) (name : Text) (head : Int) {p : StoreProgram α} :
    ((w.catalog.bind Db.ranges).isSome ∧ (env i).fault = none ∧ (env (i + 1)).fault = none ∧
      ∃ w₁, RangesUpdated (Stmt.sealRange name head) w w₁ ∧
        eval (storeMachine h) env i ((sealEventFileRange name head).bind fun _ => p) w =
          eval (storeMachine h) env (i + 2) p w₁) ∨
    ((w.catalog.bind Db.ranges = none ∨ (env i).fault ≠ none ∨ (env (i + 1)).fault ≠ none) ∧
      ∃ err, eval (storeMachine h) env i ((sealEventFileRange name head).bind fun _ => p) w =
        (.error err, w)) := by
  unfold sealEventFileRange
  rw [bind_eq, bind_assoc]
  -- either of the two calls may fail, and then nothing is written
  rcases eval_getConnection env .catalog (h := h) (i := i) (w := w)
    (f := fun _ => (sql .catalog (.sealEventFileRange name head)).bind fun _ => p) with
    ⟨hdb, hf, heq⟩ | ⟨hwhy, herr⟩
  · obtain ⟨d, hd⟩ := Option.isSome_iff_exists.1 hdb
    have hcat : w.catalog = some d := hd
    rw [heq]
    rcases eval_sql env (h := h) (i := i + 1) (s := .sealEventFileRange name head) hd
      (f := fun _ => p) with ⟨a, d', hex, hf', heq'⟩ | ⟨hwhy, herr⟩
    · obtain ⟨rs, hrs, rfl⟩ := Stmt.exec_sealRange.1 hex
      exact .inl ⟨by simp [hcat, hrs], hf, hf',
        w.setDb .catalog { d with ranges := some (Stmt.sealRange name head rs) },
        ⟨⟨rfl, rfl, rfl⟩, d, rs, hcat, hrs, rfl⟩, heq'⟩
    · refine .inr ⟨?_, herr⟩
      rcases hwhy with ⟨x, hx⟩ | hf'
      · cases hrs : d.ranges with
        | none => exact .inl (by simp [hcat, hrs])
        | some rs => rw [(Stmt.exec_sealRange (a := ())).2 ⟨rs, hrs, rfl⟩] at hx; cases hx
      · exact .inr (.inr hf')
  · refine .inr ⟨?_, herr⟩
    rcases hwhy with hnone | hf
    · have hcat : w.catalog = none := hnone
      exact .inl (by simp [hcat])
    · exact .inr (.inl hf)

end Eval

/-! ## Up to the sealing -/

section Failure

variable {H : Type} [DecidableEq H] {h : H} {env : Nat → StoreEnv} {w w' : World H}
  {rotation : RotationPolicy} {nowMs : Int}

/-- The active partition of the handle has a name to go to and an append head, the catalog has its
table, and the operations up to the sealing do not fail. -/
structure SealsFirst (h : H) (rotation : RotationPolicy) (nowMs : Int) (env : Nat → StoreEnv)
    (w : World H) : Prop where
  target : ∃ p a new, w.handles h = some (p, a) ∧
    determineNewPartitionInfo rotation a.startMs a.ordinal nowMs = .ok new ∧
    (w.headOf a.name).isSome
  catalog : (w.catalog.bind Db.ranges).isSome
  noFault : ∀ i, 0 < i → i < 5 → (env i).fault = none

/-- The range of the file that the handle writes to is neither sealed nor bounded. -/
def ActiveOpen (h : H) (w : World H) : Prop :=
  ∃ p a r, w.handles h = some (p, a) ∧ r ∈ w.ranges ∧ r.name = a.name ∧ r.isSealed = false ∧
    r.lastVersion = none

/-- The part of a rotation behind the sealing. -/
def prepareAndSwitch (head : Int) (new : ActivePartition) : StoreProgram Unit := do
  createPartitionDb new.name head
  createEventFileRange (rangeOf new.name head)
  setActive new

/-- Behind the sealing a failure leaves the ranges and the handle as they are. -/
theorem wp_prepareAndSwitch (head : Int) (new : ActivePartition) :
    wp (anything h) (prepareAndSwitch head new) (fun r w' => ∀ err, r = .error err →
      w'.ranges = w.ranges ∧ w'.handles = w.handles) w := by
  unfold prepareAndSwitch
  simp only [bind_eq]
  refine wp_bind_of (wp_createPartitionDb fun _ _ _ _ _ _ => trivial) (fun _ w₂ hw₂ => ?_)
    fun e w₂ hw₂ err _ => ?_
  · rw [wp_bind]
    refine wp_createEventFileRange (fun _ _ => trivial) (fun w₃ hw₃ => ⟨trivial, ?_⟩) fun err _ err' _ => ?_
    · exact fun e _ => ⟨trivial, by simp⟩
    · exact ⟨by rw [World.ranges, hw₂.1.catalog]; rfl, hw₂.1.handles⟩
  · exact ⟨by rw [World.ranges, hw₂.1.catalog]; rfl, hw₂.1.handles⟩

/-- A failed rotation has failed before the sealing and changed nothing, or behind it and sealed the
range of the file that stays active. -/
theorem eval_rotatePartitionLocked_error {err : Abort}
    (hfail : eval (storeMachine h) env 0 (rotatePartitionLocked rotation nowMs) w = (.error err, w')) :
    (¬SealsFirst h rotation nowMs env w ∧ w' = w) ∨
      (SealsFirst h rotation nowMs env w ∧ w'.handles = w.handles ∧ ∃ p a head,
        w.handles h = some (p, a) ∧ w'.ranges = Stmt.sealRange a.name head w.ranges) := by
  have hstart : rotatePartitionLocked rotation nowMs = readActive.bind fun active =>
      (ofAbort (determineNewPartitionInfo rotation active.startMs active.ordinal nowMs)).bind fun new =>
        (getConnection (.eventFile active.name)).bind fun _ =>
          (readEventFileAppendHead active.name).bind fun head =>
            (sealEventFileRange active.name head).bind fun _ =>
              prepareAndSwitch head ⟨new.1, new.2.1, new.2.2⟩ := rfl
  rw [hstart, eval_readActive] at hfail
  -- a program that ends before the sealing has changed nothing
  have hend : ∀ {x : Except Abort Unit × World H}, (∃ e, x = (.error e, w)) → x = (.error err, w') →
      w' = w := by
    rintro x ⟨e, rfl⟩ heq
    exact (congrArg Prod.snd heq).symm
  cases ha : w.handles h with
  | none =>
    rw [ha] at hfail
    refine .inl ⟨fun hseals => ?_, hend ⟨_, rfl⟩ hfail⟩
    obtain ⟨p, a, new, ha', -⟩ := hseals.target
    rw [ha] at ha'
    cases ha'
  | some pa =>
    obtain ⟨p, a⟩ := pa
    rw [ha] at hfail
    have htarget : SealsFirst h rotation nowMs env w →
        (∃ new, determineNewPartitionInfo rotation a.startMs a.ordinal nowMs = .ok new) ∧
          w.headOf a.name ≠ none := by
      intro hseals
      obtain ⟨p', a', new, ha', hnew, hhead⟩ := hseals.target
      obtain ⟨rfl, rfl⟩ : p = p' ∧ a = a' := by simpa [ha] using ha'
      exact ⟨⟨new, hnew⟩, Option.isSome_iff_ne_none.1 hhead⟩
    cases hnew : determineNewPartitionInfo rotation a.startMs a.ordinal nowMs with
    | error e =>
      simp only [hnew] at hfail
      refine .inl ⟨fun hseals => ?_, hend ⟨_, rfl⟩ hfail⟩
      obtain ⟨new, hok⟩ := (htarget hseals).1
      rw [hnew] at hok
      cases hok
    | ok new =>
      simp only [hnew] at hfail
      rcases eval_readHead env a.name (h := h) (i := 1) (w := w)
        (f := fun head => (sealEventFileRange a.name head).bind fun _ =>
          prepareAndSwitch head ⟨new.1, new.2.1, new.2.2⟩) with
        ⟨head, hhead, hf₁, hf₂, heq⟩ | ⟨hwhy, herr⟩
      · rcases eval_sealEventFileRange env a.name head (h := h) (i := 3) (w := w)
          (p := prepareAndSwitch head ⟨new.1, new.2.1, new.2.2⟩) with
          ⟨hcat, hf₃, hf₄, w₁, hsealed, heq'⟩ | ⟨hwhy, herr⟩
        · have hseals : SealsFirst h rotation nowMs env w := by
            refine ⟨⟨p, a, new, ha, hnew, by rw [hhead]; rfl⟩, hcat, fun i hpos hlt => ?_⟩
            obtain rfl | rfl | rfl | rfl : i = 1 ∨ i = 2 ∨ i = 3 ∨ i = 4 := by omega
            · exact hf₁
            · exact hf₂
            · exact hf₃
            · exact hf₄
          have hrest : eval (storeMachine h) env 5
              (prepareAndSwitch head ⟨new.1, new.2.1, new.2.2⟩) w₁ = (.error err, w') :=
            heq'.symm.trans (heq.symm.trans hfail)
          have hassume : ∀ i o s, (anything h).assume o (env i) s := fun _ _ _ => trivial
          have hpost := wp_eval hassume 5
            (wp_prepareAndSwitch head ⟨new.1, new.2.1, new.2.2⟩ (h := h) (w := w₁))
          rw [hrest] at hpost
          obtain ⟨hranges, hhandles⟩ := hpost err rfl
          exact .inr ⟨hseals, hhandles.trans hsealed.handles, p, a, head, rfl,
            hranges.trans hsealed.ranges⟩
        · refine .inl ⟨fun hseals => ?_, hend herr (heq.symm.trans hfail)⟩
          rcases hwhy with hnone | hf | hf
          · exact absurd hnone (Option.isSome_iff_ne_none.1 hseals.catalog)
          · exact hf (hseals.noFault 3 (by omega) (by omega))
          · exact hf (hseals.noFault 4 (by omega) (by omega))
      · refine .inl ⟨fun hseals => ?_, hend herr hfail⟩
        rcases hwhy with hnone | hf | hf
        · exact (htarget hseals).2 hnone
        · exact hf (hseals.noFault 1 (by omega) (by omega))
        · exact hf (hseals.noFault 2 (by omega) (by omega))

/-- **The range of the file that stays active** is open behind a failed rotation iff it was open before
and the failure comes before the sealing has been done. A failure behind the sealing closes it for good:
no later failure opens it again. -/
theorem activeOpen_iff {err : Abort}
    (hfail : eval (storeMachine h) env 0 (rotatePartitionLocked rotation nowMs) w = (.error err, w')) :
    ActiveOpen h w' ↔ ActiveOpen h w ∧ ¬SealsFirst h rotation nowMs env w := by
  rcases eval_rotatePartitionLocked_error hfail with ⟨hnot, rfl⟩ | ⟨hseals, hhandles, p, a, head, ha, hranges⟩
  · exact ⟨fun hopen => ⟨hopen, hnot⟩, And.left⟩
  · refine ⟨fun h' => ?_, fun hopen => absurd hseals hopen.2⟩
    obtain ⟨p', a', r, ha', hr, hname, hsealed, -⟩ := h'
    rw [hhandles, ha] at ha'
    obtain ⟨rfl, rfl⟩ : p = p' ∧ a = a' := by simpa using ha'
    -- every range of that name is sealed
    rw [hranges] at hr
    obtain ⟨r₀, hr₀, rfl⟩ := List.mem_map.1 hr
    by_cases hn : r₀.name = a.name
    · rw [if_pos hn] at hsealed
      cases hsealed
    · rw [if_neg hn] at hname
      exact absurd hname hn

end Failure

/-! ## What is appended next -/

/-- An increasing list of integers between two others. -/
theorem length_lt_of_between {vs : List Int} {lo hi : Int} (hlt : lo < hi)
    (hsorted : vs.Pairwise (· < ·)) (hbounds : ∀ v ∈ vs, lo < v ∧ v < hi) :
    lo + vs.length < hi := by
  induction vs generalizing lo with
  | nil => simpa using hlt
  | cons v vs ih =>
    obtain ⟨hv, hvs⟩ := List.pairwise_cons.1 hsorted
    have hbound := hbounds v (by simp)
    have := ih hbound.2 hvs fun v' hv' => ⟨hv v' hv', (hbounds v' (List.mem_cons_of_mem _ hv')).2⟩
    rw [List.length_cons]
    push_cast
    omega

section Reads

variable {w : World Unit}

/-- An event that is less than `limit` versions behind the cursor is on the page after it. -/
theorem Ledger.mem_page (hl : Ledger w) {e : EventEnvelope} (he : e ∈ w.log) {cursor : Int}
    {limit : Nat} (hafter : cursor < e.version.get) (hle : e.version.get ≤ cursor + limit) :
    e ∈ page (AfterCursor cursor) w limit := by
  have hmem : e ∈ w.log.filter fun e => AfterCursor cursor e.toRow :=
    List.mem_filter.2 ⟨he, decide_eq_true hafter⟩
  have hpairs := List.pairwise_map.1 hl.pairwise
  have hsorted : (w.log.filter fun e => AfterCursor cursor e.toRow).Pairwise
      fun e e' => e.version.get < e'.version.get := hpairs.sublist List.filter_sublist
  unfold page
  obtain ⟨es, es', heq⟩ := List.append_of_mem hmem
  rw [heq] at hsorted ⊢
  rw [List.pairwise_append] at hsorted
  -- the events before it have versions between the cursor and its own
  have hbetween : cursor + (es.map fun e => e.version.get).length < e.version.get := by
    refine length_lt_of_between hafter (List.pairwise_map.2 hsorted.1) fun v hv => ?_
    obtain ⟨e', he', rfl⟩ := List.mem_map.1 hv
    refine ⟨?_, hsorted.2.2 e' he' e (by simp)⟩
    have hsel : e' ∈ w.log.filter fun e => AfterCursor cursor e.toRow := by
      rw [heq]
      exact List.mem_append_left _ he'
    exact of_decide_eq_true (List.mem_filter.1 hsel).2
  rw [List.length_map] at hbetween
  rw [List.take_append, List.mem_append]
  refine .inr ?_
  obtain ⟨k, hk⟩ : ∃ k, limit - es.length = k + 1 := ⟨limit - es.length - 1, by omega⟩
  rw [hk, List.take_succ_cons]
  exact List.mem_cons_self

/-- The event is returned after every cursor below it by a read that reaches as far, unless an event
that the read meets does not decode. -/
def Returned [SerdeJson] (w : World Unit) (e : EventEnvelope) : Prop :=
  ∀ cursor limit, 0 < limit → limit ≤ maxReadLimit → cursor.get < e.version.get →
    e.version.get ≤ cursor.get + limit →
    (∀ e' ∈ page (AfterCursor cursor.get) w limit, e'.payload.IsReadBack) →
    ∃ events, w.loadAfterVersion cursor limit = .ok events ∧ e ∈ events

/-- Every event that an append now commits to the active file is returned. -/
def ReturnsAppended [SerdeJson] (w : World Unit) : Prop :=
  ∀ expected events baseTime result w', Admissible events baseTime →
    Runs (anything ()) (appendLocked expected events baseTime) w (.ok result) w' →
    ∀ e ∈ result.events, Returned w' e

/-- An append that succeeds is its transaction on the active file. -/
theorem wp_appendLocked {expected : ExpectedVersion} {events : List NewEvent}
    {baseTime : OffsetDateTime} :
    wp (anything ()) (appendLocked expected events baseTime) (fun r w' => ∀ result, r = .ok result →
      ∃ p a e, w.handles () = some (p, a) ∧
        AppendStep a.name expected events baseTime e w (.ok result) w') w := by
  unfold appendLocked
  simp only [bind_eq]
  rw [wp_bind]
  refine wp_look rfl trivial fun e _ => ?_
  cases ha : w.handles () with
  | none =>
    simp only [World.step, ha, Option.map_none]
    exact fun result h => by cases h
  | some pa =>
    obtain ⟨p, a⟩ := pa
    simp only [World.step, ha, Option.map_some]
    show wp (anything ()) ((getConnection _).bind _) _ w
    rw [wp_bind]
    refine wp_getConnection trivial (fun _ => fun e _ => ⟨trivial, ?_⟩) fun err _ => fun result h => by cases h
    have hstep := step_appendTransaction expected events baseTime a.name (h := ()) (e := e) (w := w)
    show wp (anything ()) (orEs (World.step () (.appendTransaction a.name expected events baseTime) e w).1)
      _ (World.step () (.appendTransaction a.name expected events baseTime) e w).2
    -- the append is one transaction: what it answers says what the file holds
    generalize (World.step () (.appendTransaction a.name expected events baseTime) e w).1 = r at hstep
    cases r with
    | error err => exact fun result h => by cases h
    | ok result =>
      rintro result' ⟨⟩
      exact ⟨p, a, e, rfl, hstep⟩

/-- Where the newest range is open, what is appended is returned. -/
theorem Intact.returnsAppended [SerdeJson] (hi : Intact w) (hopen : NewestOpen w) : ReturnsAppended w := by
  intro expected events baseTime result w' hadm hruns e he
  obtain ⟨p, a, env, ha, hstep⟩ := hruns.post wp_appendLocked result rfl
  obtain ⟨hi', -, hranges⟩ := hi.appendStep ha hadm hstep
  have hopen' : NewestOpen w' := by
    obtain ⟨init, r, hinit, hlast⟩ := hopen
    exact ⟨init, r, by rw [hranges, hinit], hlast⟩
  have hlogged : e ∈ w'.log := by
    cases hstep with
    | committed hd hc => exact List.mem_append_right _ he
  intro cursor limit hpos hle hafter hreach hdecodes
  exact ⟨_, (loadAfterVersion_iff hi'.tiled hopen' hpos hle).2 hdecodes,
    hi'.tiled.toLedger.mem_page hlogged hafter hreach⟩

/-- The file that the handle writes to is the newest one. -/
theorem Intact.newestOpen (hi : Intact w) (hopen : ActiveOpen () w) : NewestOpen w := by
  obtain ⟨p, a, r, ha, hr, hname, -, hlast⟩ := hopen
  obtain ⟨init, rn, hinit, hrn⟩ := hi.writesNewest p a ha
  refine ⟨init, rn, hinit, ?_⟩
  have hnodup := hi.tiled.nodup
  rw [hinit] at hr hnodup
  rw [List.map_append, List.nodup_append] at hnodup
  rcases List.mem_append.1 hr with hold | hnew
  · exact absurd (hname.trans hrn.symm) (hnodup.2.2 _ (List.mem_map_of_mem hold) _ (by simp))
  · rw [← List.mem_singleton.1 hnew]
    exact hlast

/-- The calls on a stream reach the state from its first open, rotating to new files, whatever fails,
and nobody writes. -/
def Reached [SerdeJson] (w : World Unit) : Prop :=
  ∃ (T : Type) (_ : DecidableEq T) (rotation : RotationPolicy) (w₀ : World Unit)
    (tr : List (Label (eventStreams Unit) T × Config (eventStreams Unit) T)),
    Opens rotation World.empty w₀ ∧ IsRun RotatesToNewFiles (Config.idle T w₀) tr ∧
      ((lastOf (Config.idle T w₀) tr).lock ()).writer = none ∧ (lastOf (Config.idle T w₀) tr).st = w

theorem Reached.intact [SerdeJson] (h : Reached w) : Intact w := by
  obtain ⟨T, hT, rotation, w₀, tr, hopen, hrun, hfree, rfl⟩ := h
  exact intact_run hopen hrun hfree

/-- **Failed rotations**: in any state whatever, a rotation that fails leaves the range of the active file
open, and leaves a reached state such that the reads return what is appended next, iff that range was open
before and the rotation fails before it has sealed it. -/
theorem failed_rotation_iff [SerdeJson] {w' : World Unit} {rotation : RotationPolicy} {nowMs : Int}
    {env : Nat → StoreEnv} {err : Abort}
    (hfail : eval (storeMachine ()) env 0 (rotatePartitionLocked rotation nowMs) w = (.error err, w')) :
    ActiveOpen () w' ∧ (Reached w → ReturnsAppended w') ↔
      ActiveOpen () w ∧ ¬SealsFirst () rotation nowMs env w := by
  rw [← activeOpen_iff hfail]
  refine ⟨And.left, fun hopen' => ⟨hopen', fun hreached => ?_⟩⟩
  obtain ⟨hopen, hnot⟩ := (activeOpen_iff hfail).1 hopen'
  rcases eval_rotatePartitionLocked_error hfail with ⟨-, rfl⟩ | ⟨hseals, -⟩
  · exact hreached.intact.returnsAppended (hreached.intact.newestOpen hopen)
  · exact absurd hseals hnot

end Reads

/-! ## Two failures -/

/-- The connection to the active file fails. -/
def noConnection (i : Nat) : StoreEnv := { fault := if i = 1 then some "unable to open" else none }

attribute [local instance] SerdeJson.limited

theorem failed_rotation_iff_noConnection :
    ∃ err w', eval (storeMachine ()) noConnection 0 (rotatePartitionLocked hourly 3600000) opened =
        (.error err, w') ∧ ActiveOpen () w' ∧ ReturnsAppended w' := by
  have herror : (eval (storeMachine ()) noConnection 0 (rotatePartitionLocked hourly 3600000)
      opened).1.isOk = false := by decide +kernel
  rcases hr : eval (storeMachine ()) noConnection 0 (rotatePartitionLocked hourly 3600000) opened with
    ⟨r, w'⟩
  rw [hr] at herror
  cases r with
  | ok u => cases herror
  | error err =>
    obtain ⟨t, a, hfirst⟩ := firstOpen_of_opens opens_opened
    have hopen : ActiveOpen () opened :=
      ⟨hourly, a, rangeOf a.name 0, hfirst.handle, by rw [hfirst.ranges]; exact List.mem_singleton_self _,
        rfl, rfl, rfl⟩
    have hreached : Reached opened :=
      ⟨Unit, inferInstance, hourly, opened, [], opens_opened, trivial, rfl, rfl⟩
    obtain ⟨hopen', hreturns⟩ := (failed_rotation_iff hr).2 ⟨hopen, fun hseals => by
      have := hseals.noFault 1 (by omega) (by omega)
      cases this⟩
    exact ⟨err, w', rfl, hopen', hreturns hreached⟩

/-- An append waits for the write lock while a rotation to the next hour fails to create its file. -/
def appendBehindFailure : List (Move (eventStreams Unit) Bool) :=
  .invoke false () (.append hourly 1 .any [noteEvent]) :: List.replicate 9 (.turn false {}) ++
    .invoke true () (.maybeRotate hourly) :: List.replicate 12 (.turn true atOne) ++
    [.turn true { fault := some "disk full" }, .turn true {}, .turn true {}] ++
    List.replicate 6 (.turn false {})

/-- The rotation has failed, and the append has committed version 1. -/
def failsThenAppends : List (Label (eventStreams Unit) Bool × Config (eventStreams Unit) Bool) → Bool
  | tr => (tr.any fun x => match x.1 with
      | .respond _ _ (.maybeRotate _) (.error _) => true
      | _ => false) &&
    tr.any fun x => match x.1 with
      | .respond _ _ (.append _ _ _ _) (.ok (.appended result)) => result.firstVersion == ⟨1⟩
      | _ => false

/-- The test of `ActiveOpen`. -/
def isActiveOpen (w : World Unit) : Bool :=
  match w.handles () with
  | some (_, a) =>
    w.ranges.any fun r => r.name == a.name && (!r.isSealed && r.lastVersion.isNone)
  | none => false

theorem isActiveOpen_of {w : World Unit} (h : ActiveOpen () w) : isActiveOpen w = true := by
  obtain ⟨p, a, r, ha, hr, hname, hsealed, hlast⟩ := h
  simp only [isActiveOpen, ha, List.any_eq_true]
  exact ⟨r, hr, by simp [hname, hsealed, hlast]⟩

/-- The next read from the start finds nothing. -/
theorem not_returned_behind_failure : ∃ tr,
    play appendBehindFailure (Config.idle Bool opened) = some tr ∧
    IsRun RotatesToNewFiles (Config.idle Bool opened) tr ∧ failsThenAppends tr = true ∧
    ((lastOf (Config.idle Bool opened) tr).lock ()).writer = none ∧
    ¬ActiveOpen () (lastOf (Config.idle Bool opened) tr).st ∧
    (lastOf (Config.idle Bool opened) tr).st.loadAfterVersion .start 10 = .ok [] := by
  have hplay : ((play appendBehindFailure (Config.idle Bool opened)).map fun tr =>
      checks isFreshNote (Config.idle Bool opened) tr && (failsThenAppends tr &&
      (((lastOf (Config.idle Bool opened) tr).lock ()).writer.isNone &&
      (!isActiveOpen (lastOf (Config.idle Bool opened) tr).st &&
      ((lastOf (Config.idle Bool opened) tr).st.loadAfterVersion .start 10).toOption.any
        List.isEmpty)))) = some true := by decide +kernel
  obtain ⟨tr, htr, hchecks⟩ := Option.map_eq_some_iff.1 hplay
  simp only [Bool.and_eq_true, Bool.not_eq_true'] at hchecks
  obtain ⟨hfresh, hfails, hwriter, hopen, hload⟩ := hchecks
  refine ⟨tr, htr, rotatesToNewFiles_of_play htr hfresh, hfails, Option.isNone_iff_eq_none.1 hwriter,
    fun h => ?_, ?_⟩
  · rw [isActiveOpen_of h] at hopen
    cases hopen
  · cases hr : (lastOf (Config.idle Bool opened) tr).st.loadAfterVersion .start 10 with
    | error err => rw [hr] at hload; cases hload
    | ok events =>
      rw [hr] at hload
      rw [List.isEmpty_iff.1 hload]

end Events
