import Events.PolicyChanges

/-!
# Opening after a crash

The process may stop between any two operations of a first open, a rotation or an append, and later
opens may stop as well. What it leaves can be opened again, with all committed events, unless it has
stopped inside one of two stretches: after the table of an event file's append head was to be made and
before its row is there, or between the first statement of the catalog's migration and its record.

* **`Recoverable`**, **`HalfMade`** — what a stop leaves of the files of one policy.
* **`InUse`** — the store between two calls on an open handle.
* **`wp_openPartitioned_durable`** — opening the partition.
* **`lawful_crashDiscipline`** — the calls keep what a stop may leave, at every moment.
* **`crash_recovery`** — the result on runs.
-/

namespace Events

open Proc Program Discipline

/-! ## Making an event file -/

/-- The file while it is being made: it has no head and no rows yet, or it is ready. -/
def Stage (v : Int) (d : Db) : Prop := d.headVersion = none ∧ d.rows = [] ∨ d = freshFile v

/-- The store while the event file `name` is being made. -/
def Making (name : Text) (v : Int) (w w' : World Unit) : Prop :=
  w' = w ∨ ∃ d, Stage v d ∧ w' = w.setDb (.eventFile name) d

section Making

variable {C : Contract (storeMachine ())} {w : World Unit} {name : Text} {v : Int}

/-- A statement on the file that is being made. -/
theorem wp_sql_making {s : Stmt} {d d' : Db} {a : s.Ans} {Q : Except Abort s.Ans → World Unit → Prop}
    (hG : ∀ (o : StoreOp) w₁ w₂, o.isAppend = false → Making name v w w₁ → Making name v w w₂ →
      C.guarantee o w₁ w₂)
    (hd : Stage v d) (hd' : Stage v d') (hexec : s.exec d = .ok (a, d'))
    (hok : Q (.ok a) (w.setDb (.eventFile name) d'))
    (herr : ∀ err, ¬Calm C → Q (.error err) (w.setDb (.eventFile name) d)) :
    wp C (sql (.eventFile name) s) Q (w.setDb (.eventFile name) d) := by
  have hmaking : Making name v w (w.setDb (.eventFile name) d) := .inr ⟨d, hd, rfl⟩
  have hmaking' : Making name v w (w.setDb (.eventFile name) d') := .inr ⟨d', hd', rfl⟩
  refine wp_sql (hG _ _ _ rfl hmaking hmaking) (fun d₀ a₀ d₁ hd₀ hex => ?_) fun err he => herr _ ?_
  · obtain rfl : d = d₀ := by simpa [World.db] using hd₀
    obtain ⟨rfl, rfl⟩ : a = a₀ ∧ d' = d₁ := by simpa [hexec] using hex
    have hnext : (if s.isQuery then w.setDb (.eventFile name) d
        else (w.setDb (.eventFile name) d).setDb (.eventFile name) d') = w.setDb (.eventFile name) d' := by
      split
      · rename_i hquery
        rw [Stmt.exec_query hquery hexec]
      · simp [World.setDb, AList.insert_insert]
    rw [hnext]
    exact ⟨hG _ _ _ rfl hmaking hmaking', hok⟩
  · rcases he with he | he | ⟨d₀, x, hd₀, hex⟩
    · exact he
    · simp [World.db] at he
    · obtain rfl : d = d₀ := by simpa [World.db] using hd₀
      rw [hexec] at hex
      cases hex

/-- The statements of a migration on the file that is being made: they write no head and no row. -/
theorem wp_executeBatch_making {batch : List SchemaStmt} {d d' : Db}
    {Q : Except Abort Unit → World Unit → Prop}
    (hG : ∀ (o : StoreOp) w₁ w₂, o.isAppend = false → Making name v w w₁ → Making name v w w₂ →
      C.guarantee o w₁ w₂)
    (hd : d.headVersion = none ∧ d.rows = [])
    (hexec : batch.foldlM (fun d s => (Stmt.schema s).exec d |>.map Prod.snd) d = .ok d')
    (hok : d'.headVersion = none ∧ d'.rows = [] → Q (.ok ()) (w.setDb (.eventFile name) d'))
    (herr : ∀ err w', ¬Calm C → Making name v w w' → Q (.error err) w') :
    wp C (executeBatch (.eventFile name) batch) Q (w.setDb (.eventFile name) d) := by
  induction batch generalizing d with
  | nil =>
    obtain rfl : d = d' := by simpa [pure, Except.pure] using hexec
    exact hok hd
  | cons s batch ih =>
    simp only [List.foldlM_cons, Bind.bind] at hexec
    cases hex : (Stmt.schema s).exec d with
    | error x => simp [hex, Except.map, Except.bind] at hexec
    | ok r =>
      obtain ⟨a, d₁⟩ := r
      simp only [hex, Except.map, Except.bind] at hexec
      obtain ⟨hrows, hhead, -⟩ := exec_migrates (s := .schema s) rfl hex
      have hd₁ : d₁.headVersion = none ∧ d₁.rows = [] := ⟨hhead.trans hd.1, hrows.trans hd.2⟩
      show wp C ((sql _ _).bind _) Q _
      rw [wp_bind]
      exact wp_sql_making hG (.inl hd) (.inl hd₁) hex (ih hd₁ hexec) fun err hC =>
        herr err _ hC (.inr ⟨d, .inl hd, rfl⟩)

/-- **`create_partition_db`** on a name without a file goes through the stages of the new file. -/
theorem wp_createPartitionDb_making {Q : Except Abort Unit → World Unit → Prop}
    (hnone : w.files.lookup name = none)
    (hG : ∀ (o : StoreOp) w₁ w₂, o.isAppend = false → Making name v w w₁ → Making name v w w₂ →
      C.guarantee o w₁ w₂)
    (hok : Q (.ok ()) (w.setDb (.eventFile name) (freshFile v)))
    (herr : ∀ err w', ¬Calm C → Making name v w w' → Q (.error err) w') :
    wp C (createPartitionDb name v) Q w := by
  have hstage : ∀ {d : Db}, d.headVersion = none ∧ d.rows = [] →
      Making name v w (w.setDb (.eventFile name) d) := fun {d} hd => .inr ⟨d, .inl hd, rfl⟩
  have hw : Making name v w w := .inl rfl
  unfold createPartitionDb openPartitionDb
  simp only [bind_eq]
  rw [wp_bind, wp_bind]
  intro e he
  simp only [World.step, World.db, hnone, Option.isSome_none, Bool.false_eq_true, if_false]
  cases hfault : e.fault with
  | some message =>
    exact ⟨hG _ _ _ rfl hw hw, herr _ _ (fun hC => by simp [(hC _ e w he).1] at hfault) hw⟩
  | none =>
    have hempty : ({} : Db).headVersion = none ∧ ({} : Db).rows = [] := ⟨rfl, rfl⟩
    refine ⟨hG _ _ _ rfl hw (hstage hempty), ?_⟩
    refine wp_configureDatabase (hG _ _ _ rfl (hstage hempty) (hstage hempty)) ?_ fun err hC =>
      herr _ _ hC (hstage hempty)
    show wp C ((connect (.eventFile name)).bind _) Q _
    rw [wp_bind]
    refine wp_connect (hG _ _ _ rfl (hstage hempty) (hstage hempty)) ?_ fun err hC =>
      herr _ _ hC (hstage hempty)
    -- the migrations, none of which is recorded yet
    show wp C ((runMigrations (.eventFile name) partitionMigrations).bind _) Q _
    unfold runMigrations
    simp only [bind_eq]
    rw [wp_bind, wp_bind]
    refine wp_sql_making hG (.inl hempty) (.inl ⟨rfl, rfl⟩) rfl ?_ fun err hC => herr _ _ hC (hstage hempty)
    show wp C ((sql (.eventFile name) .loadAppliedMigrations).bind _) _ _
    rw [wp_bind]
    refine wp_sql_making hG (.inl ⟨rfl, rfl⟩) (.inl ⟨rfl, rfl⟩) rfl ?_ fun err hC =>
      herr _ _ hC (hstage ⟨rfl, rfl⟩)
    show wp C (((executeBatch _ _).bind fun _ => sql _ _).bind _) _ _
    rw [wp_bind, wp_bind]
    refine wp_executeBatch_making hG ⟨rfl, rfl⟩ rfl (fun _ => ?_) fun err w' hC hw' => herr _ _ hC hw'
    refine wp_sql_making hG (.inl ⟨rfl, rfl⟩) (.inl ⟨rfl, rfl⟩) rfl ?_ fun err hC =>
      herr _ _ hC (hstage ⟨rfl, rfl⟩)
    exact wp_sql_making hG (.inl ⟨rfl, rfl⟩) (.inr rfl) rfl hok fun err hC => herr _ _ hC (hstage ⟨rfl, rfl⟩)

end Making

/-! ## What a stop leaves -/

/-- The event files of one policy: their names have one shape, and ascend. -/
structure Filed (policy : RotationPolicy) (w : World Unit) (names : List Text) : Prop
    extends Shelved w names where
  shapes : ∀ n ∈ names, labelShape n = some (windowShape policy.window)
  ascending : names.Pairwise (· < ·)

/-- The number of the ranges that are not sealed. -/
def World.unsealed (w : World Unit) : Nat := (w.ranges.filter fun r => !r.isSealed).length

/-- All event files are complete, and where the catalog has just one unsealed range it has all of them. -/
structure Recoverable (policy : RotationPolicy) (w : World Unit) (names : List Text) : Prop
    extends Filed policy w names where
  listed : ∀ r ∈ w.ranges, r.name ∈ names
  single : w.unsealed = 1 → w.ranges = w.shelfRanges names

/-- An event file is there without its append head, and the catalog is one that will be rebuilt. -/
structure HalfMade (w : World Unit) : Prop extends Ledger w where
  file : ∃ n, isEventFileName n = true ∧ w.files.lookup n ≠ none ∧ w.headOf n = none
  unsealed : w.unsealed ≠ 1

/-- What there is at any moment. -/
def Durable (policy : RotationPolicy) (w : World Unit) : Prop :=
  (∃ names, Recoverable policy w names) ∨ HalfMade w

/-- The store while its handle writes to the newest file. -/
structure InUse (policy : RotationPolicy) (a : ActivePartition) (w : World Unit) (names : List Text) :
    Prop extends Filed policy w names where
  ranges : w.ranges = w.shelfRanges names
  active : ∃ init, names = init ++ [a.name]
  named : IsAt a.name (a.startMs, a.ordinal)

/-- A name of the policy that comes behind all others. -/
structure ComesBehind (policy : RotationPolicy) (names : List Text) (new : Text) : Prop where
  accepted : ∃ v, parsePartitionName new = .ok v
  shape : labelShape new = some (windowShape policy.window)
  behind : ∀ n ∈ names, n < new

section Durable

variable {policy : RotationPolicy} {w w' : World Unit} {names : List Text} {new : Text}
  {a : ActivePartition}

theorem Filed.of_same (h : Filed policy w names) (hfiles : ∀ n, w'.files.lookup n = w.files.lookup n)
    (hl : Ledger w') (hlog : w'.log = w.log) : Filed policy w' names where
  toShelved := h.toShelved.of_same hfiles hl hlog
  shapes := h.shapes
  ascending := h.ascending

theorem Recoverable.of_unchanged (h : Recoverable policy w names) (hsame : Unchanged w w') :
    Recoverable policy w' names where
  toFiled := h.toFiled.of_same (fun n => by rw [hsame.files]) (h.toLedger.unchanged hsame) hsame.log
  listed := by
    rw [hsame.ranges]
    exact h.listed
  single := by
    rw [World.unsealed, hsame.ranges, shelfRanges_of_files hsame.files]
    exact h.single

theorem HalfMade.of_unchanged (h : HalfMade w) (hsame : Unchanged w w') : HalfMade w' where
  toLedger := h.toLedger.unchanged hsame
  file := by
    obtain ⟨n, hevent, hfile, hhead⟩ := h.file
    exact ⟨n, hevent, by rw [hsame.files]; exact hfile, by rw [World.headOf, hsame.files]; exact hhead⟩
  unsealed := by
    rw [World.unsealed, hsame.ranges]
    exact h.unsealed

/-- Neither the handle nor the schema of the catalog matters. -/
theorem Durable.of_unchanged (h : Durable policy w) (hsame : Unchanged w w') : Durable policy w' := by
  rcases h with ⟨names, h⟩ | h
  · exact .inl ⟨names, h.of_unchanged hsame⟩
  · exact .inr (h.of_unchanged hsame)

theorem InUse.of_unchanged (h : InUse policy a w names) (hsame : Unchanged w w') :
    InUse policy a w' names where
  toFiled := h.toFiled.of_same (fun n => by rw [hsame.files]) (h.toLedger.unchanged hsame) hsame.log
  ranges := by
    rw [hsame.ranges, shelfRanges_of_files hsame.files]
    exact h.ranges
  active := h.active
  named := h.named

theorem InUse.recoverable (h : InUse policy a w names) : Recoverable policy w names where
  toFiled := h.toFiled
  listed r hr := by
    rw [h.ranges] at hr
    obtain ⟨n, hn, hname, -⟩ := World.mem_shelfRanges hr
    rw [hname]
    exact hn
  single _ := h.ranges

theorem InUse.durable (h : InUse policy a w names) : Durable policy w := .inl ⟨names, h.recoverable⟩

/-- The head of the active file. -/
theorem InUse.head (h : InUse policy a w names) : w.headOf a.name = some (w.log.length : Int) := by
  obtain ⟨init, hinit⟩ := h.active
  obtain ⟨lo, hholds⟩ := h.last hinit
  exact hholds.1

/-! ### A new file -/

/-- A new file, of the head `w.log.length`, comes behind the others. -/
theorem Filed.extended (h : Filed policy w names) (hnew : ComesBehind policy names new) :
    Filed policy (w.setDb (.eventFile new) (freshFile w.log.length)) (names ++ [new]) := by
  have hnone : w.files.lookup new = none :=
    not_not.1 fun hfile => lt_irrefl _ (hnew.behind new ((h.files new).2 hfile))
  refine { toShelved := h.toShelved.extended hnone hnew.accepted, shapes := fun n hn => ?_, ascending := ?_ }
  · rcases List.mem_append.1 hn with hn | hn
    · exact h.shapes n hn
    · rw [List.mem_singleton.1 hn]
      exact hnew.shape
  · refine List.pairwise_append.2 ⟨h.ascending, List.pairwise_singleton _ _, fun n hn n' hn' => ?_⟩
    rw [List.mem_singleton.1 hn']
    exact hnew.behind n hn

/-- While a new file is being made, a stop leaves it half made, or ready. -/
theorem Recoverable.making (h : Recoverable policy w names) (hunsealed : w.unsealed ≠ 1)
    (hnew : ComesBehind policy names new) (hw' : Making new w.log.length w w') : Durable policy w' := by
  have hmem : new ∉ names := fun hn => lt_irrefl _ (hnew.behind new hn)
  have hnone : w.files.lookup new = none := not_not.1 fun hfile => hmem ((h.files new).2 hfile)
  rcases hw' with rfl | ⟨d, ⟨hhead, hrows⟩ | rfl, rfl⟩
  · exact .inl ⟨names, h⟩
  · have hbuilding : Building new w.log.length w (w.setDb (.eventFile new) d) :=
      (Building.refl new _ w).setDb (by simp [World.rowsOf, hnone, hrows])
        (.inl (by simp [World.headOf, hnone, hhead]))
    have hself : (w.setDb (.eventFile new) d).files.lookup new = some d := World.lookup_setDb
    refine .inr { toLedger := h.toLedger.building hbuilding, file := ⟨new, ?_, ?_, ?_⟩,
                  unsealed := hunsealed }
    · exact isEventFileName_of_accepted hnew.accepted
    · rw [hself]
      simp
    · rw [World.headOf, hself]
      exact hhead
  · exact .inl ⟨names ++ [new], { toFiled := h.toFiled.extended hnew
                                  listed := fun r hr => List.mem_append_left _ (h.listed r hr)
                                  single := fun hone => absurd hone hunsealed }⟩

end Durable

/-! ## Rotating -/

section Rotating

variable {policy : RotationPolicy} {w w₁ w₃ : World Unit} {names : List Text} {a new : ActivePartition}

/-- The newest range is sealed where its file ends. -/
theorem InUse.sealed (h : InUse policy a w names)
    (hu : RangesUpdated (Stmt.sealRange a.name w.log.length) w w₁) :
    Recoverable policy w₁ names ∧ w₁.unsealed = 0 ∧
      w₁.ranges = names.map fun n => rangeOfSummary false (w₁.summary n) := by
  rw [summary_of_files hu.files]
  obtain ⟨init, hinit⟩ := h.active
  obtain ⟨lo, hholds⟩ := h.last hinit
  have heq := h.ranges.trans (World.shelfRanges_eq hinit)
  have hnodup : (w.ranges.map EventFileRange.name).Nodup := by
    rw [h.ranges, World.names_shelfRanges]
    exact h.nodup
  have hranges : w₁.ranges = names.map fun n => rangeOfSummary false (w.summary n) := by
    rw [hu.ranges, heq, hinit, List.map_append, List.map_singleton, ← hholds.sealAt]
    exact sealRange_newest (r := rangeOfSummary true (w.summary a.name)) (by rw [← heq]; exact hnodup)
  have hnone : w₁.unsealed = 0 := by
    unfold World.unsealed
    rw [hranges, List.length_eq_zero_iff, List.filter_eq_nil_iff]
    intro r hr
    obtain ⟨n, -, rfl⟩ := List.mem_map.1 hr
    simp [rangeOfSummary]
  refine ⟨{ toFiled := h.toFiled.of_same (fun n => by rw [hu.files]) (h.toLedger.sameFiles hu.toSameFiles)
              hu.log, listed := fun r hr => ?_, single := fun hone => ?_ }, hnone, hranges⟩
  · rw [hranges] at hr
    obtain ⟨n, hn, rfl⟩ := List.mem_map.1 hr
    exact hn
  · rw [hnone] at hone
    cases hone

/-- A name that a rotation has generated. -/
theorem determineNewPartitionInfo_generated {rotation : RotationPolicy} {startMs nowMs newStartMs : Int}
    {ordinal newOrdinal : Option Nat} {name : Text}
    (h : determineNewPartitionInfo rotation startMs ordinal nowMs = .ok (name, newStartMs, newOrdinal)) :
    generatePartitionName newStartMs rotation.window newOrdinal = .ok name := by
  unfold determineNewPartitionInfo at h
  split at h
  · cases h
  · rename_i s hs
    split at h
    · split at h
      · cases h
      · rename_i n hn
        cases hname : generatePartitionName s rotation.window (some n) with
        | error err => rw [hname] at h; cases h
        | ok newName => rw [hname] at h; cases h; exact hname
    · cases hname : generatePartitionName s rotation.window none with
      | error err => rw [hname] at h; cases h
      | ok newName => rw [hname] at h; cases h; exact hname

/-- A rotation that does not go back goes behind all files. -/
theorem InUse.comesBehind {nowMs : Int} (h : InUse policy a w names)
    (hround : NamesRoundTrip policy.window nowMs)
    (hforward : ∀ s, floorToWindowMs nowMs policy.window = some s → a.startMs ≤ s)
    (hnew : determineNewPartitionInfo policy a.startMs a.ordinal nowMs =
      .ok (new.name, new.startMs, new.ordinal)) :
    ComesBehind policy names new.name ∧ IsAt new.name (new.startMs, new.ordinal) := by
  obtain ⟨hparse, hbefore⟩ := determineNewPartitionInfo_before hround hforward hnew
  have hshape := (generated_accepted (determineNewPartitionInfo_generated hnew) ⟨_, hparse⟩).2.1
  refine ⟨⟨⟨_, hparse⟩, hshape, fun n hn => ?_⟩, hparse⟩
  obtain ⟨init, hinit⟩ := h.active
  have ha : a.name ∈ names := by rw [hinit]; simp
  have hlt : a.name < new.name :=
    ((named_of_parse h.named).lt_iff (named_of_parse hparse) ((h.shapes _ ha).trans hshape.symm)).2.1.2
      hbefore
  have hascending := h.ascending
  rw [hinit] at hn hascending
  rcases List.mem_append.1 hn with hn | hn
  · exact lt_trans ((List.pairwise_append.1 hascending).2.2 n hn _ (List.mem_singleton.2 rfl)) hlt
  · rwa [List.mem_singleton.1 hn]

/-- The range of the new file comes behind the sealed ones. -/
theorem Recoverable.turned (h : Recoverable policy w names)
    (hranges : w.ranges = names.map fun n => rangeOfSummary false (w.summary n))
    (hnew : ComesBehind policy names new.name) (hnamed : IsAt new.name (new.startMs, new.ordinal))
    (hu : RangesUpdated (Stmt.upsert (rangeOf new.name w.log.length))
      (w.setDb (.eventFile new.name) (freshFile w.log.length)) w₃) :
    InUse policy new w₃ (names ++ [new.name]) := by
  have hmem : new.name ∉ names := fun hn => lt_irrefl _ (hnew.behind _ hn)
  have hfiled := h.toFiled.extended hnew
  have hother : ∀ n ∈ names, (w.setDb (.eventFile new.name) (freshFile w.log.length)).summary n =
      w.summary n := fun n hn => summary_of_lookup (World.lookup_setDb_ne fun heq => hmem (heq ▸ hn))
  refine { toFiled := hfiled.of_same (fun n => by rw [hu.files]) (hfiled.toLedger.sameFiles hu.toSameFiles)
             hu.log, ranges := ?_, active := ⟨names, rfl⟩, named := hnamed }
  have hupsert : ∀ r ∈ (w.setDb (.eventFile new.name) (freshFile w.log.length)).ranges,
      r.name ≠ (rangeOf new.name w.log.length).name := by
    intro r hr heq
    have hname : r.name = new.name := heq
    exact hmem (hname ▸ h.listed r hr)
  rw [shelfRanges_of_files hu.files, World.shelfRanges_eq rfl, hu.ranges, upsert_new hupsert,
    summary_freshFile]
  congr 1
  refine Eq.trans ?_ (List.map_congr_left fun n hn => by rw [hother n hn])
  exact hranges

/-- The handle writes to the newest file. -/
def Serving (policy : RotationPolicy) (w : World Unit) : Prop :=
  ∃ a names, w.handles () = some (policy, a) ∧ InUse policy a w names

/-- **A rotation that does not go back** leaves, wherever it is stopped, what can be opened again. -/
theorem InUse.wp_rotate {C : Contract (storeMachine ())} {nowMs : Int} (h : InUse policy a w names)
    (ha : w.handles () = some (policy, a)) (hC : Calm C) (hround : NamesRoundTrip policy.window nowMs)
    (hforward : NotBehind policy nowMs w)
    (hG : ∀ (o : StoreOp) w₁ w₂, o.isAppend = false → Durable policy w₁ → Durable policy w₂ →
      C.guarantee o w₁ w₂) :
    wp C (rotatePartitionLocked policy nowMs) (fun _ w' => Serving policy w') w := by
  have hserving : Serving policy w := ⟨a, names, ha, h⟩
  have hstay : ∀ o : StoreOp, o.isAppend = false → C.guarantee o w w :=
    fun o ho => hG o w w ho h.durable h.durable
  refine wp_rotatePartitionLocked (fun o ho => hstay o (isAppend_of_isPassive ho)) (fun _ => hserving)
    fun p a' new head ha' hnew hhead => ?_
  obtain ⟨rfl, rfl⟩ : policy = p ∧ a = a' := by simpa [ha] using ha'
  obtain rfl : head = w.log.length := Option.some.inj (hhead.symm.trans h.head)
  obtain ⟨hbehind, hat⟩ := h.comesBehind hround (fun s hs => hforward policy a s ha hs) hnew
  unfold rotateTo
  simp only [bind_eq]
  rw [wp_bind]
  refine wp_sealEventFileRange (fun o ho => hstay o (isAppend_of_onCatalog ho)) (fun w₁ hu => ?_)
    fun _ _ => hserving
  obtain ⟨hrec, hnone, hranges⟩ := h.sealed hu
  have hunsealed : w₁.unsealed ≠ 1 := by rw [hnone]; decide
  have hfile : w₁.files.lookup new.name = none := not_not.1 fun hfile =>
    lt_irrefl _ (hbehind.behind _ ((hrec.files _).2 hfile))
  refine ⟨hG _ _ _ rfl h.durable (.inl ⟨names, hrec⟩), ?_⟩
  rw [wp_bind, ← hu.log]
  refine wp_createPartitionDb_making hfile (fun o w₂ w₃ ho hw₂ hw₃ => ?_) ?_ fun _ _ hnot => absurd hC hnot
  · exact hG o w₂ w₃ ho (hrec.making hunsealed hbehind hw₂) (hrec.making hunsealed hbehind hw₃)
  -- the file is ready, its range is missing
  have hready : Durable policy (w₁.setDb (.eventFile new.name) (freshFile w₁.log.length)) :=
    hrec.making hunsealed hbehind (.inr ⟨_, .inr rfl, rfl⟩)
  rw [wp_bind]
  refine wp_createEventFileRange (fun o ho => hG o _ _ (isAppend_of_onCatalog ho) hready hready)
    (fun w₃ hu₃ => ?_) fun _ hwhy => ?_
  · have hinuse := hrec.turned hranges hbehind hat hu₃
    have hactivated : InUse policy new (w₃.activate () new) (names ++ [new.name]) :=
      hinuse.of_unchanged ⟨rfl, rfl, rfl⟩
    have hhandles : w₃.handles () = some (policy, a) := by
      rw [hu₃.handles]
      show w₁.handles () = _
      rw [hu.handles, ha]
    have hactive : (w₃.activate () new).handles () = some (policy, new) := by
      simp [World.activate, hhandles]
    exact ⟨hG _ _ _ rfl hready hinuse.durable, fun e _ =>
      ⟨hG _ _ _ rfl hinuse.durable hactivated.durable, new, _, hactive, hactivated⟩⟩
  · obtain ⟨d, rs, -, -, hcat⟩ := hu.catalog
    rcases hwhy with hnot | hnot
    · exact absurd hC hnot
    · change w₁.catalog.bind Db.ranges = none at hnot
      rw [hcat] at hnot
      cases hnot

/-- **An append** keeps the newest file in use, whatever becomes of it. -/
theorem InUse.appendStep {expected : ExpectedVersion} {events : List NewEvent}
    {baseTime : OffsetDateTime} {e : StoreEnv} {r : Except EsError AppendResult} {w' : World Unit}
    (h : InUse policy a w names) (ha : w.handles () = some (policy, a)) (hadm : Admissible events baseTime)
    (hstep : AppendStep a.name expected events baseTime e w r w') : Serving policy w' := by
  obtain ⟨init, hinit⟩ := h.active
  obtain ⟨hs, hranges, hhandles⟩ := h.toShelved.appendStep hinit h.ranges ha hadm hstep
  exact ⟨a, names, by rw [hhandles, ha], { toShelved := hs, shapes := h.shapes, ascending := h.ascending
                                           ranges := hranges, active := h.active, named := h.named }⟩

end Rotating

/-! ## Opening -/

/-- The time falls into a window whose names are read back. -/
structure KnownWindow (window : Duration) (nowMs : Int) : Prop where
  start : (floorToWindowMs nowMs window).isSome
  names : NamesRoundTrip window nowMs

/-- The catalog's migration is whole, and so are the event files. -/
structure Complete (w : World Unit) : Prop where
  catalog : CatalogReady w
  heads : ∀ n, isEventFileName n = true → w.files.lookup n ≠ none → w.headOf n ≠ none

section Opening

variable {policy : RotationPolicy} {w w₁ w₂ : World Unit} {names : List Text} {a : ActivePartition}
  {C : Contract (storeMachine ())}

/-- The first file of an empty store. -/
theorem Recoverable.wp_first {Q : Except Abort ActivePartition → World Unit → Prop}
    (h : Recoverable policy w []) (hranges : w.ranges = []) (hsome : (w.catalog.bind Db.ranges).isSome)
    (hC : Calm C) (hreads : ∀ e w, C.assume .now e w → KnownWindow policy.window e.now.unixTimestampMs)
    (hG : ∀ (o : StoreOp) w₁ w₂, o.isAppend = false → Durable policy w₁ → Durable policy w₂ →
      C.guarantee o w₁ w₂)
    (hok : ∀ a w', InUse policy a w' [a.name] → w'.log = w.log → Q (.ok a) w') :
    wp C (createNewActivePartition policy 1) Q w := by
  -- nothing is written before the clock has been read and the name made
  have hd : Durable policy w := .inl ⟨[], h⟩
  have hunsealed : w.unsealed ≠ 1 := by simp [World.unsealed, hranges]
  have hzero : (1 - 1 : Int) = w.log.length := h.stacked
  unfold createNewActivePartition now
  rw [bind_eq, call_bind]
  refine wp_look rfl (hG _ w w rfl hd hd) fun e he => ?_
  simp only [World.step, done_ok_bind]
  obtain ⟨startMs, hstart⟩ := Option.isSome_iff_exists.1 (hreads e w he).start
  obtain ⟨name, hname, hparse⟩ := (hreads e w he).names startMs hstart none fun o ho => by cases ho
  rw [hstart]
  simp only [orPanic, bind_eq, pure_eq, done_ok_bind]
  rw [hname]
  have hbehind : ComesBehind policy [] name :=
    ⟨⟨_, hparse⟩, (generated_accepted hname ⟨_, hparse⟩).2.1, fun n hn => by cases hn⟩
  have hfile : w.files.lookup name = none := not_not.1 fun hfile => by cases (h.files name).2 hfile
  show wp C ((createPartitionDb name (1 - 1)).bind _) Q w
  rw [wp_bind, hzero]
  refine wp_createPartitionDb_making hfile (fun o w₂ w₃ ho hw₂ hw₃ => ?_) ?_ fun _ _ hnot => absurd hC hnot
  · -- a crash while the file is made leaves it without a range
    exact hG o w₂ w₃ ho (h.making hunsealed hbehind hw₂) (h.making hunsealed hbehind hw₃)
  have hready : Durable policy (w.setDb (.eventFile name) (freshFile w.log.length)) :=
    h.making hunsealed hbehind (.inr ⟨_, .inr rfl, rfl⟩)
  have hone : (1 : Int) = w.log.length + 1 := by omega
  show wp C ((createEventFileRange _).bind _) Q _
  rw [wp_bind, hone]
  refine wp_createEventFileRange (fun o ho => hG o _ _ (isAppend_of_onCatalog ho) hready hready)
    (fun w₃ hu₃ => ?_) fun _ hwhy => ?_
  · have hinuse : InUse policy ⟨name, startMs, none⟩ w₃ ([] ++ [name]) :=
      h.turned hranges hbehind hparse hu₃
    exact ⟨hG _ _ _ rfl hready hinuse.durable, hok _ _ hinuse hu₃.log⟩
  · rcases hwhy with hnot | hnot
    · exact absurd hC hnot
    · change w.catalog.bind Db.ranges = none at hnot
      rw [hnot] at hsome
      cases hsome

theorem Recoverable.complete_iff (h : Recoverable policy w names) : Complete w ↔ CatalogReady w :=
  ⟨fun hw => hw.catalog, fun hw => ⟨hw, fun n _ hfile => (h.readable ((h.files n).2 hfile)).head⟩⟩

theorem HalfMade.not_complete (h : HalfMade w) : ¬Complete w := by
  obtain ⟨n, hevent, hfile, hhead⟩ := h.file
  exact fun hw => hw.heads n hevent hfile hhead

/-- **Opening what a stop has left**, if all event files are complete. -/
theorem Recoverable.wp_open {Q : Except Abort Unit → World Unit → Prop} (h : Recoverable policy w names)
    (hC : Calm C) (hreads : ∀ e w, C.assume .now e w → KnownWindow policy.window e.now.unixTimestampMs)
    (hG : ∀ (o : StoreOp) w₁ w₂, o.isAppend = false → Durable policy w₁ → Durable policy w₂ →
      C.guarantee o w₁ w₂)
    (hok : ∀ a names' w', InUse policy a w' names' → (names ≠ [] → names' = names ∧ w'.files = w.files) →
      w'.handles () = some (policy, a) → w'.log = w.log → CatalogReady w → Q (.ok ()) w')
    (herr : ∀ e w', CatalogOpened w w' → ¬CatalogReady w → Q (.error e) w') :
    wp C (openPartitioned policy) Q w := by
  have hd : ∀ {w'}, CatalogOpened w w' → Durable policy w' :=
    fun hw' => .inl ⟨names, h.of_unchanged hw'.unchanged⟩
  refine wp_openPartitioned_of (fun o w₁ w₂ ho hw₁ hw₂ => hG o w₁ w₂ (isAppend_of_opensCatalog ho) (hd hw₁)
    (hd hw₂)) (fun w₁ hw₁ hready hthere => ?_) fun e w' hw' hwhy => herr e w' hw' ?_
  · have hrec := h.of_unchanged hw₁.unchanged
    have hstay : ∀ o : StoreOp, o.isAppend = false → C.guarantee o w₁ w₁ :=
      fun o ho => hG o w₁ w₁ ho (hd hw₁) (hd hw₁)
    -- the handle is opened
    have hdone : ∀ {a names' w'}, (w₁.catalog.bind Db.ranges).isSome → InUse policy a w' names' →
        (names ≠ [] → names' = names ∧ w'.files = w₁.files) → w'.log = w₁.log →
        C.guarantee (.openHandle policy a) w' (w'.held policy a) ∧ Q (.ok ()) (w'.held policy a) := by
      intro a names' w' hsome hinuse hnames hlog
      have hheld : InUse policy a (w'.held policy a) names' := hinuse.of_unchanged ⟨rfl, rfl, rfl⟩
      refine ⟨hG _ _ _ rfl hinuse.durable hheld.durable, hok a names' _ hheld (fun hne => ?_)
        (by simp [World.held]) (hlog.trans hw₁.log) (hready hsome)⟩
      exact ⟨(hnames hne).1, (hnames hne).2.trans hw₁.files⟩
    have hfail : ∀ e, ¬Calm C ∨ w₁.catalog.bind Db.ranges = none → Q (.error e) w₁ := by
      intro e hwhy
      refine herr e w₁ hw₁ fun hcatalog => ?_
      rcases hwhy with hnot | hnone
      · exact hnot hC
      · have hsome := hthere hC hcatalog
        rw [hnone] at hsome
        cases hsome
    refine wp_initialize_of hstay (fun r hr _ hsome => ?_) (fun hne _ hsome => ?_) fun e hwhy => hfail e ?_
    · -- the newest file is the unsealed one
      have hsingle := hrec.single (by rw [World.unsealed, hr]; rfl)
      rw [hsingle] at hr
      obtain ⟨init, n, hinit⟩ : ∃ init n, names = init ++ [n] :=
        names.eq_nil_or_concat'.resolve_left fun hnil => by
          rw [hnil] at hr
          cases hr
      have hunsealed : r = rangeOfSummary true (w₁.summary n) := by
        rw [World.shelfRanges, hinit, List.map_append, List.map_singleton, unsealed_rangesOfSummaries] at hr
        exact (List.singleton_inj.1 hr).symm
      have hn : n ∈ names := by rw [hinit]; simp
      obtain ⟨v, hv⟩ := hrec.accepted n hn
      rw [hunsealed]
      refine wp_openUnsealed_some (v := v) hstay hv ((hrec.files n).1 hn) ?_ fun _ hnot => absurd hC hnot
      exact hdone hsome { toFiled := hrec.toFiled, ranges := hsingle, active := ⟨init, hinit⟩, named := hv }
        (fun _ => ⟨rfl, rfl⟩) rfl
    · by_cases hnil : names = []
      · -- there is no event file: a first one is made
        subst hnil
        have hempty : rebuiltRanges w₁ w₁.directory = [] := by
          have hperm := (names_rebuiltRanges (w := w₁) w₁.directory).trans hrec.directory
          exact List.map_eq_nil_iff.1 hperm.eq_nil
        rw [wp_bind]
        refine wp_rebuild hstay (fun w₂ _ hw₂ => ?_) fun err hwhy => hfail err ?_
        · rw [hempty] at hw₂ ⊢
          have hranges : w₂.ranges = [] := hw₂.ranges
          have hrec₂ : Recoverable policy w₂ [] :=
            { toFiled := hrec.toFiled.of_same (fun n => by rw [hw₂.files])
                (hrec.toLedger.sameFiles hw₂.toSameFiles) hw₂.log
              listed := fun r hr => by rw [hranges] at hr; cases hr
              single := fun hone => by simp [World.unsealed, hranges] at hone }
          obtain ⟨d, rs, -, -, hcat⟩ := hw₂.catalog
          have hsome₂ : (w₂.catalog.bind Db.ranges).isSome := by rw [hcat]; rfl
          refine ⟨hG _ _ _ rfl (hd hw₁) (.inl ⟨[], hrec₂⟩), ?_⟩
          show wp C (createNewActivePartition policy 1) _ w₂
          refine hrec₂.wp_first hranges hsome₂ hC hreads hG fun a w' hinuse hlog => ?_
          exact hdone hsome hinuse (fun hne => absurd rfl hne) (hlog.trans hw₂.log)
        · rcases hwhy with hnot | hnone | ⟨m, hevent, hfile, hnot⟩
          · exact .inl hnot
          · exact .inr hnone
          · cases (hrec.files m).2 hfile
      · refine hrec.wp_rebuild_open hnil hstay (fun w₂ n v hn hlast hv hw₂ => ?_) hfail
        obtain ⟨init, last, hinit⟩ := names.eq_nil_or_concat'.resolve_left hnil
        -- the names ascend, so the file that comes last is the newest
        have hties := hrec.ascending.imp fun {m n} hlt (_ : (w₁.summary m).firstVersion =
          (w₁.summary n).firstVersion) => hlt
        have hrebuilt := hrec.rebuilt hties
        obtain rfl : n = last := by
          have hmax : summaryLe (w₁.summary n) (w₁.summary last) := by
            rw [hinit] at hn hties
            have hfirsts := hrec.firsts
            rw [hinit] at hfirsts
            rcases List.mem_append.1 hn with hn | hn
            · have hle := (List.pairwise_append.1 hfirsts).2.2 n hn last (List.mem_singleton.2 rfl)
              have htie := (List.pairwise_append.1 hties).2.2 n hn last (List.mem_singleton.2 rfl)
              rcases hle.lt_or_eq with hlt | heq
              · exact .inl hlt
              · exact .inr ⟨heq, (htie heq).le⟩
            · rw [List.mem_singleton.1 hn]
              exact .inr ⟨rfl, le_refl _⟩
          exact summaryLe_antisymm hmax (hlast last (by rw [hinit]; simp))
        have hinuse : InUse policy ⟨n, v.1, v.2⟩ w₂ names :=
          { toFiled := hrec.toFiled.of_same (fun n => by rw [hw₂.files])
              (hrec.toLedger.sameFiles hw₂.toSameFiles) hw₂.log
            ranges := by rw [hw₂.ranges, shelfRanges_of_files hw₂.files]; exact hrebuilt
            active := ⟨init, hinit⟩
            named := hv }
        refine ⟨hG _ _ _ rfl (hd hw₁) hinuse.durable, fun o ho => hG o _ _ ho hinuse.durable hinuse.durable,
          ?_, fun _ hnot => absurd hC hnot⟩
        exact hdone hsome hinuse (fun _ => ⟨rfl, hw₂.files⟩) hw₂.log
    · rcases hwhy with hnot | hnone | ⟨r, hr, hnot⟩
      · exact .inl hnot
      · exact .inr hnone
      · obtain ⟨v, hv⟩ := hrec.accepted _ (hrec.listed r hr)
        exact absurd hv (hnot v)
  · exact fun hcatalog => hwhy.elim (fun hnot => hnot hC) fun hnot => hnot hcatalog

/-- **Opening fails** where an event file is half made, and changes nothing. -/
theorem HalfMade.wp_open {Q : Except Abort Unit → World Unit → Prop} (h : HalfMade w)
    (hG : ∀ (o : StoreOp) w₁ w₂, o.isAppend = false → HalfMade w₁ → HalfMade w₂ → C.guarantee o w₁ w₂)
    (herr : ∀ e w', CatalogOpened w w' → Q (.error e) w') : wp C (openPartitioned policy) Q w := by
  have hhalf : ∀ {w'}, CatalogOpened w w' → HalfMade w' := fun hw' => h.of_unchanged hw'.unchanged
  refine wp_openPartitioned_of (fun o w₁ w₂ ho hw₁ hw₂ => hG o w₁ w₂ (isAppend_of_opensCatalog ho)
    (hhalf hw₁) (hhalf hw₂)) (fun w₁ hw₁ _ _ => ?_) fun e w' hw' _ => herr e w' hw'
  have hstay : ∀ o : StoreOp, o.isAppend = false → C.guarantee o w₁ w₁ :=
    fun o ho => hG o w₁ w₁ ho (hhalf hw₁) (hhalf hw₁)
  refine wp_initialize_of hstay (fun r hr _ _ => ?_) (fun _ _ _ => ?_) fun e _ => herr e w₁ hw₁
  · exact absurd (show w₁.unsealed = 1 by rw [World.unsealed, hr]; rfl) (hhalf hw₁).unsealed
  · rw [wp_bind]
    refine wp_rebuild hstay (fun w₂ hall _ => ?_) fun err _ => herr err w₁ hw₁
    obtain ⟨n, hevent, hfile, hhead⟩ := (hhalf hw₁).file
    exact absurd hhead (hall n hevent hfile).head

end Opening

/-! ## The discipline -/

/-- No step fails, and the clock reads times whose windows have names that are read back. -/
def timely (policy : RotationPolicy) : Contract (storeMachine ()) where
  assume o e _ := (e.fault = none ∧ ∀ i, e.statementFault i = none) ∧
    (o = .now → KnownWindow policy.window e.now.unixTimestampMs)
  guarantee _ _ _ := True

/-- All opens and rotations have the policy, and a rotation does not go to an earlier window. -/
def OfPolicy (policy : RotationPolicy) : LockNote → World Unit → Prop
  | .opening rotation, _ => rotation = policy
  | .rotating rotation nowMs, w => rotation = policy ∧ NotBehind policy nowMs w
  | .appending, _ => True

/-- The calls on one stream, stopped at any moment and opened again: what there is can be opened, unless a
file is half made. -/
def crashDiscipline [SerdeJson] (policy : RotationPolicy) : Discipline (eventStreams Unit) CallStatus where
  allow o e _ := Steady o e ∧ (o = .now → KnownWindow policy.window e.now.unixTimestampMs)
  allowWrite := OfPolicy policy
  restarts := .anytime
  inv w := w.handles () = none ∧ Durable policy w ∨ Serving policy w
  always := Durable policy
  guarantee _ _ _ _ := True
  ghost₀ := CallStatus.ofCall
  ghost o x status := status.after o x

section Discipline

variable {policy : RotationPolicy} {w w' : World Unit}

theorem reads_crashDiscipline [SerdeJson] :
    Reads (crashDiscipline policy) fun t => KnownWindow policy.window t.unixTimestampMs where
  quiet _ ho x status := CallStatus.after_of_not_append ho x status
  refl _ _ _ _ _ := trivial
  clock _ _ he := he.2 rfl

theorem Serving.durable (h : Serving policy w) : Durable policy w := by
  obtain ⟨a, names, -, hinuse⟩ := h
  exact hinuse.durable

theorem Serving.of_catalogOpened (h : Serving policy w) (hopened : CatalogOpened w w') : Serving policy w' := by
  obtain ⟨a, names, ha, hinuse⟩ := h
  exact ⟨a, names, by rw [hopened.handles, ha], hinuse.of_unchanged hopened.unchanged⟩

/-- A body that appends nothing, verified for steps that do not fail. -/
theorem wp_crashDiscipline [SerdeJson] {α : Type} {p : StoreProgram α} {status : CallStatus}
    {Q : Except Abort α → World Unit → Prop} (hp : p.All fun o : StoreOp => o.isAppend = false)
    (h : wp { timely policy with guarantee := fun _ _ w' => Durable policy w' } p Q w) :
    wp ((crashDiscipline policy).contract status) p Q w :=
  wp_mono (wp_framed (J := fun _ => True) hp trivial h fun o ho e w he _ =>
    ⟨⟨he.1.resolve_left (by simp [ho]), he.2⟩, trivial, fun hd => ⟨trivial, hd⟩⟩) fun _ _ hr => hr.1

/-- **The calls keep what can be opened again**, at every moment. -/
theorem lawful_crashDiscipline [SerdeJson] : (crashDiscipline policy).Lawful AppendPost := by
  refine reads_crashDiscipline.lawful_append rfl rfl (fun w hw => ?_) (fun h => by cases h)
    (fun _ w hw => ?_) (fun rotation w _ _ => ?_) ?_ ?_
  · exact hw.elim (fun hw => hw.2) Serving.durable
  · exact .inl ⟨rfl, hw.of_unchanged ⟨rfl, rfl, rfl⟩⟩
  · refine safe_withWrite fun w hw hnote => ?_
    obtain rfl : rotation = policy := hnote
    have hopen : wp { timely rotation with guarantee := fun _ _ w' => Durable rotation w' }
        (openPartitioned rotation) (fun _ w' => (crashDiscipline rotation).inv w') w := by
      have hfailed : ∀ {w'}, CatalogOpened w w' → (crashDiscipline rotation).inv w' := by
        intro w' hw'
        refine hw.imp (fun hw => ⟨?_, hw.2.of_unchanged hw'.unchanged⟩) fun hw => hw.of_catalogOpened hw'
        rw [hw'.handles]
        exact hw.1
      rcases hw.elim (fun hw => hw.2) Serving.durable with ⟨names, hrec⟩ | hhalf
      · exact hrec.wp_open (fun _ _ _ he => he.1) (fun _ _ he => he.2 rfl) (fun _ _ _ _ _ hw' => hw')
          (fun a names' w' hinuse _ ha _ _ => .inr ⟨a, names', ha, hinuse⟩) fun _ _ hw' _ => hfailed hw'
      · exact hhalf.wp_open (fun _ _ _ _ _ hw' => .inr hw') fun _ _ hw' => hfailed hw'
    have hquiet := (all_openPartitioned rotation).mono fun o ho =>
      isAppend_of_isUpkeep (isUpkeep_of_setsHeadTo ho)
    exact safe_lift_writing (hquiet.mono fun o ho => reads_crashDiscipline.quiet o ho)
      (wp_crashDiscipline hquiet hopen) fun r w' hw' => ⟨rfl, hw', rfl, rfl⟩
  · rintro rotation nowMs status w ⟨t, ht, rfl⟩ hw ⟨rfl, hforward⟩
    refine wp_crashDiscipline (all_rotatePartitionLocked rotation _) ?_
    rcases hw with ⟨hnone, hd⟩ | ⟨a, names, ha, hinuse⟩
    · -- there is no handle to rotate
      refine wp_rotatePartitionLocked (fun _ _ => hd) (fun _ => .inl ⟨hnone, hd⟩) fun p a new head ha => ?_
      rw [hnone] at ha
      cases ha
    · exact wp_mono (hinuse.wp_rotate ha (fun _ _ _ he => he.1) ht.names hforward fun _ _ _ _ _ hw' => hw')
        fun _ _ hw' => .inr hw'
  · intro expected events baseTime p a e r w w' hw _ ha _ hadm hstep _
    rcases hw with ⟨hnone, -⟩ | ⟨a', names, ha', hinuse⟩
    · rw [hnone] at ha
      cases ha
    · obtain ⟨rfl, rfl⟩ : p = policy ∧ a = a' := by simpa [ha] using ha'
      exact ⟨trivial, .inr (hinuse.appendStep ha hadm hstep)⟩

end Discipline

/-! ## Runs -/

/-- The events that an operation has committed. -/
def committedBy : (o : StoreOp) → o.Resp → List EventEnvelope
  | .appendTransaction _ _ _ _, .ok result => result.events
  | _, _ => []

/-- The events that a run has committed, in their order. -/
def committedEvents [SerdeJson] {T : Type} : Config (eventStreams Unit) T →
    List (Label (eventStreams Unit) T × Config (eventStreams Unit) T) → List EventEnvelope
  | _, [] => []
  | c, (.op _ _ o e, c') :: tr => committedBy o (World.step () o e c.st).1 ++ committedEvents c' tr
  | _, (_, c') :: tr => committedEvents c' tr

theorem step_log {o : StoreOp} {e : StoreEnv} {w : World Unit} :
    (World.step () o e w).2.log = w.log ++ committedBy o (World.step () o e w).1 := by
  have hset : ∀ ref d, (w.setDb ref d).log = w.log := fun ref d => by cases ref <;> rfl
  cases o with
  | appendTransaction name expected events baseTime =>
    have hstep := step_appendTransaction (h := ()) (e := e) (w := w) expected events baseTime name
    generalize World.step () (.appendTransaction name expected events baseTime) e w = next at hstep ⊢
    obtain ⟨r, w'⟩ := next
    cases hstep with
    | committed hd hc => rfl
    | refused hb hfiles hver => simpa [committedBy] using (hb 0).log
  | buildDatabase ref =>
    simp only [World.step, committedBy, List.append_nil]
    repeat' split
    · rfl
    · rfl
    · exact hset ref _
  | sql ref s =>
    simp only [World.step, World.stepSql, committedBy, List.append_nil]
    repeat' split
    · rfl
    · rfl
    · rfl
    · exact hset ref _
    · rfl
  | replaceTransaction ranges =>
    rw [(step_onCatalog (h := ()) (o := .replaceTransaction ranges) (e := e) (w := w) rfl).log]
    simp [committedBy]
  | setActive a => simp [World.step, committedBy]
  | openHandle rotation a => simp [World.step, committedBy]
  | _ =>
    rw [step_passive rfl]
    simp [committedBy]

/-- There is no event file, and no range. -/
theorem recoverable_empty {policy : RotationPolicy} : Recoverable policy World.empty [] where
  rows := List.Perm.refl _
  versions := rfl
  storable e he := by cases he
  nodup := List.nodup_nil
  files n := by simp [World.empty]
  tables n hn := by cases hn
  accepted n hn := by cases hn
  stacked := rfl
  shapes n hn := by cases hn
  ascending := List.Pairwise.nil
  listed r hr := by cases hr
  single hone := by cases hone

section Runs

variable [SerdeJson] {T : Type} [DecidableEq T] {policy : RotationPolicy} {w' : World Unit}
  {c : Config (eventStreams Unit) T}
  {tr : List (Label (eventStreams Unit) T × Config (eventStreams Unit) T)}

/-- The log of a store is what has been committed to it. -/
theorem log_lastOf {A : Config (eventStreams Unit) T → Label (eventStreams Unit) T → Prop}
    (hrun : IsRun A c tr) : (lastOf c tr).st.log = c.st.log ++ committedEvents c tr := by
  induction tr generalizing c with
  | nil => rw [committedEvents, List.append_nil]; rfl
  | cons x tr ih =>
    obtain ⟨l, c'⟩ := x
    obtain ⟨hstep, -, hrest⟩ := hrun
    have hlater := ih hrest
    cases hstep with
    | op t h call o k e ht =>
      rw [committedEvents, ← List.append_assoc, ← step_log]
      exact hlater
    | restart => exact hlater
    | _ => exact hlater

/-- Opens, rotations that do not go back and appends with one policy, stopped at any moment. No step fails
but the transactions of appends. -/
def StopsAnytime (policy : RotationPolicy) (c : Config (eventStreams Unit) T) :
    Label (eventStreams Unit) T → Prop
  | .acquireWrite _ _ note => OfPolicy policy note c.st
  | .op _ _ o e => Steady o e ∧ (o = .now → KnownWindow policy.window e.now.unixTimestampMs)
  | _ => True

omit [DecidableEq T] in
theorem permits_of_stopsAnytime {l : Label (eventStreams Unit) T} (h : StopsAnytime policy c l) :
    (crashDiscipline policy).Permits c l := by
  cases l <;> exact h

/-- The stream is open and has the events. -/
structure Recovered (policy : RotationPolicy) (events : List EventEnvelope) (w : World Unit) : Prop where
  serving : Serving policy w
  rows : w.allRows.Perm (events.map EventEnvelope.toRow)
  currentVersion : w.currentVersion = .ok ⟨events.length⟩
  reads : ∀ cursor limit, 0 < limit → limit ≤ maxReadLimit →
    (∀ e ∈ events, e.payload.IsReadBack) →
    w.loadAfterVersion cursor limit = .ok ((events.drop cursor.get.toNat).take limit)

theorem Serving.recovered {w : World Unit} (h : Serving policy w) : Recovered policy w.log w := by
  obtain ⟨a, names, ha, hinuse⟩ := h
  obtain ⟨init, hinit⟩ := hinuse.active
  obtain ⟨htiled, hopen⟩ := hinuse.tiled (by rw [hinit]; simp) hinuse.ranges
  refine ⟨⟨a, names, ha, hinuse⟩, hinuse.rows, World.currentVersion_eq ha hinuse.head (by omega), ?_⟩
  intro cursor limit hpos hle hread
  rw [← page_afterCursor hinuse.toLedger]
  refine (loadAfterVersion_iff htiled hopen.newestOpen hpos hle).2 fun e he => hread e ?_
  rw [page_afterCursor hinuse.toLedger] at he
  exact List.mem_of_mem_drop (List.mem_of_mem_take he)

/-- **Opening after a crash**: wherever the calls of a run have been stopped, the next open, which nothing
disturbs, succeeds if and only if every event file has its append head and the catalog's migration is
whole. The stream then has exactly the events that have been committed. If it fails, no file and no range
has changed. -/
theorem crash_recovery {r : Except Abort Unit}
    (hrun : IsRun (StopsAnytime policy) (Config.idle T World.empty) tr)
    (hopen : Runs (timely policy) (openPartitioned policy)
      (lastOf (Config.idle T World.empty) tr).st.restart r w') :
    (r = .ok () ↔ Complete (lastOf (Config.idle T World.empty) tr).st) ∧
      (r = .ok () → Recovered policy (committedEvents (Config.idle T World.empty) tr) w') ∧
      (r ≠ .ok () → Unchanged (lastOf (Config.idle T World.empty) tr).st w') := by
  have hlog := log_lastOf hrun
  have hsound := sound_run lawful_crashDiscipline (fun _ _ => permits_of_stopsAnytime)
    (sound_idle lawful_crashDiscipline (.inl ⟨rfl, .inl ⟨[], recoverable_empty⟩⟩) fun _ => .other) hrun
  have hdurable := hsound.always
  generalize (lastOf (Config.idle T World.empty) tr).st = w at *
  have hcommitted : w.log = committedEvents (Config.idle T World.empty) tr := hlog
  have hsame : Unchanged w w.restart := ⟨rfl, rfl, rfl⟩
  rw [← hcommitted]
  rcases hdurable with ⟨names, hrec⟩ | hhalf
  · rw [hrec.complete_iff]
    have hpost : wp (timely policy) (openPartitioned policy) (fun r w' =>
        (r = .ok () ∧ CatalogReady w ∧ Serving policy w' ∧ w'.log = w.log) ∨
          (∃ e, r = .error e) ∧ ¬CatalogReady w ∧ CatalogOpened w.restart w') w.restart :=
      (hrec.of_unchanged hsame).wp_open (fun _ _ _ he => he.1) (fun _ _ he => he.2 rfl)
        (fun _ _ _ _ _ _ => trivial)
        (fun a names' w' hinuse _ ha hlog hready => .inl ⟨rfl, hready, ⟨a, names', ha, hinuse⟩, hlog⟩)
        fun e w' hw' hnot => .inr ⟨⟨e, rfl⟩, hnot, hw'⟩
    rcases hopen.post hpost with ⟨rfl, hready, hserving, hlog'⟩ | ⟨⟨e, rfl⟩, hnot, hw'⟩
    · exact ⟨iff_of_true rfl hready, fun _ => hlog' ▸ hserving.recovered, fun hne => absurd rfl hne⟩
    · exact ⟨iff_of_false (by simp) hnot, fun h => (by cases h),
        fun _ => ⟨hw'.files, hw'.log, hw'.ranges⟩⟩
  · have hpost : wp (timely policy) (openPartitioned policy)
        (fun r w' => (∃ e, r = .error e) ∧ CatalogOpened w.restart w') w.restart :=
      (hhalf.of_unchanged hsame).wp_open (fun _ _ _ _ _ _ => trivial) fun e w' hw' => ⟨⟨e, rfl⟩, hw'⟩
    obtain ⟨⟨e, rfl⟩, hw'⟩ := hopen.post hpost
    exact ⟨iff_of_false (by simp) hhalf.not_complete, fun h => (by cases h),
      fun _ => ⟨hw'.files, hw'.log, hw'.ranges⟩⟩

/-! ## Computed runs -/

/-- The test of `StopsAnytime` for windows of one hour. -/
def isOfPolicy (c : Config (eventStreams Unit) T) : Label (eventStreams Unit) T → Bool
  | .acquireWrite _ _ (.opening rotation) => decide (rotation = hourly)
  | .acquireWrite _ _ (.rotating rotation nowMs) =>
    decide (rotation = hourly) &&
      match c.st.handles (), floorToWindowMs nowMs rotation.window with
      | some (_, a), some startMs => decide (a.startMs ≤ startMs)
      | _, _ => true
  | _ => true

theorem stopsAnytime_of_play {ms : List (Move (eventStreams Unit) T)} (h : play ms c = some tr)
    (hcheck : checks isOfPolicy c tr = true) (hms : ∀ t e, Move.turn t e ∈ ms → e = {} ∨ e = atOne) :
    IsRun (StopsAnytime hourly) c tr := by
  refine ((play_checks h hcheck).and (play_env h hms)).mono fun c l hl => ?_
  cases l with
  | op t hd o e =>
    rcases hl.2 t hd o e rfl with rfl | rfl
    · exact ⟨.inr ⟨rfl, fun _ => rfl⟩, fun _ => ⟨by decide, namesRoundTrip_hour (by decide) (by decide)⟩⟩
    · exact ⟨.inr ⟨rfl, fun _ => rfl⟩, fun _ => ⟨by decide, namesRoundTrip_hour (by decide) (by decide)⟩⟩
  | acquireWrite t hd note =>
    cases note with
    | opening rotation =>
      have hpolicy : rotation = hourly := of_decide_eq_true hl.1
      exact hpolicy
    | rotating rotation nowMs =>
      obtain ⟨hpolicy, hbehind⟩ := Bool.and_eq_true_iff.1 hl.1
      obtain rfl := of_decide_eq_true hpolicy
      refine ⟨rfl, fun p a startMs ha hfloor => ?_⟩
      simp only [ha, hfloor] at hbehind
      exact of_decide_eq_true hbehind
    | appending => trivial
  | _ => trivial

end Runs

section Stopped

attribute [local instance] SerdeJson.limited

/-- An event in the first hour, and a rotation in the second that gets as far as `k` steps. -/
def stopInRotation (k : Nat) : List (Move (eventStreams Unit) Unit) :=
  .invoke () () (.openPartitioned hourly) :: List.replicate 35 (.turn () {}) ++
    .invoke () () (.append hourly 1 .any [noteEvent]) :: List.replicate 15 (.turn () {}) ++
    .invoke () () (.maybeRotate hourly) :: List.replicate k (.turn () atOne)

theorem mem_stopInRotation {k : Nat} {t : Unit} {e : StoreEnv} (h : Move.turn t e ∈ stopInRotation k) :
    e = {} ∨ e = atOne := by
  simp only [stopInRotation] at h
  grind

/-- The store that is opened again at one o'clock. -/
def reopenAtOne (w : World Unit) : Except Abort Unit × World Unit :=
  eval (storeMachine ()) (fun _ => atOne) 0 (openPartitioned hourly) w.restart

theorem runs_reopenAtOne (w : World Unit) :
    Runs (timely hourly) (openPartitioned hourly) w.restart (reopenAtOne w).1 (reopenAtOne w).2 :=
  eval_runs (C := timely hourly) (fun _ _ _ => ⟨⟨rfl, fun _ => rfl⟩,
    fun _ => ⟨by decide, namesRoundTrip_hour (by decide) (by decide)⟩⟩) 0 _ _

/-- A stop before the range of the new file is there does no harm. -/
theorem crash_recovery_beforeRange : ∃ tr,
    play (stopInRotation 27) (Config.idle Unit World.empty) = some tr ∧
    (lastOf (Config.idle Unit World.empty) tr).st.unsealed = 0 ∧
    Recovered hourly (committedEvents (Config.idle Unit World.empty) tr)
      (reopenAtOne (lastOf (Config.idle Unit World.empty) tr).st).2 := by
  have hplay : ((play (stopInRotation 27) (Config.idle Unit World.empty)).map fun tr =>
      checks isOfPolicy (Config.idle Unit World.empty) tr &&
      ((lastOf (Config.idle Unit World.empty) tr).st.unsealed == 0 &&
      (reopenAtOne (lastOf (Config.idle Unit World.empty) tr).st).1.isOk)) = some true := by decide +kernel
  obtain ⟨tr, htr, hchecks⟩ := Option.map_eq_some_iff.1 hplay
  obtain ⟨hpolicy, hchecks⟩ := Bool.and_eq_true_iff.1 hchecks
  obtain ⟨hunsealed, hok⟩ := Bool.and_eq_true_iff.1 hchecks
  have hrun := stopsAnytime_of_play htr hpolicy fun t e => mem_stopInRotation
  have hrecovery := crash_recovery hrun (runs_reopenAtOne _)
  refine ⟨tr, htr, by simpa using hunsealed, hrecovery.2.1 ?_⟩
  cases hr : (reopenAtOne (lastOf (Config.idle Unit World.empty) tr).st).1 with
  | ok u => rfl
  | error e =>
    rw [hr] at hok
    cases hok

/-- A stop between the statements of the new file leaves a store that does not open. -/
theorem not_crash_recovery_halfMade : ∃ tr,
    play (stopInRotation 20) (Config.idle Unit World.empty) = some tr ∧
    IsRun (StopsAnytime hourly) (Config.idle Unit World.empty) tr ∧
    committedEvents (Config.idle Unit World.empty) tr ≠ [] ∧
    (reopenAtOne (lastOf (Config.idle Unit World.empty) tr).st).1 ≠ .ok () := by
  have hplay : ((play (stopInRotation 20) (Config.idle Unit World.empty)).map fun tr =>
      checks isOfPolicy (Config.idle Unit World.empty) tr &&
      (!(committedEvents (Config.idle Unit World.empty) tr).isEmpty &&
      !(reopenAtOne (lastOf (Config.idle Unit World.empty) tr).st).1.isOk)) = some true := by decide +kernel
  obtain ⟨tr, htr, hchecks⟩ := Option.map_eq_some_iff.1 hplay
  obtain ⟨hpolicy, hchecks⟩ := Bool.and_eq_true_iff.1 hchecks
  obtain ⟨hcommitted, hfails⟩ := Bool.and_eq_true_iff.1 hchecks
  refine ⟨tr, htr, stopsAnytime_of_play htr hpolicy fun t e => mem_stopInRotation, ?_, fun hok => ?_⟩
  · intro hnil
    simp [hnil] at hcommitted
  · rw [hok] at hfails
    cases hfails

end Stopped

section Runs

variable [SerdeJson] {T : Type} [DecidableEq T] {policy : RotationPolicy} {w' : World Unit}
  {c : Config (eventStreams Unit) T}
  {tr : List (Label (eventStreams Unit) T × Config (eventStreams Unit) T)}

/-- **Repairing the catalog**: between two calls, when the rows of `event_file_ranges` are lost or flipped so
that not just one is unsealed, the next open writes the ranges as they were, and goes on with the file that
was active. -/
theorem damage_repaired {r : Except Abort Unit} {damaged : World Unit}
    (hrun : IsRun (StopsAnytime policy) (Config.idle T World.empty) tr)
    (hfree : ((lastOf (Config.idle T World.empty) tr).lock ()).writer = none)
    (hheld : (lastOf (Config.idle T World.empty) tr).st.handles () ≠ none)
    (hfiles : damaged.files = (lastOf (Config.idle T World.empty) tr).st.files)
    (hlog : damaged.log = (lastOf (Config.idle T World.empty) tr).st.log) (hready : CatalogReady damaged)
    (hrows : ∀ r ∈ damaged.ranges, ∃ r₀ ∈ (lastOf (Config.idle T World.empty) tr).st.ranges,
      r.name = r₀.name)
    (hunsealed : damaged.unsealed ≠ 1)
    (hopen : Runs (timely policy) (openPartitioned policy) damaged.restart r w') :
    r = .ok () ∧ Unchanged (lastOf (Config.idle T World.empty) tr).st w' ∧
      w'.handles () = (lastOf (Config.idle T World.empty) tr).st.handles () := by
  have hsound := sound_run lawful_crashDiscipline (fun _ _ => permits_of_stopsAnytime)
    (sound_idle lawful_crashDiscipline (.inl ⟨rfl, .inl ⟨[], recoverable_empty⟩⟩) fun _ => .other) hrun
  have hinv := hsound.free hfree
  generalize (lastOf (Config.idle T World.empty) tr).st = w at *
  obtain ⟨a, names, ha, hinuse⟩ : Serving policy w := hinv.resolve_left fun hnone => hheld hnone.1
  obtain ⟨init, hinit⟩ := hinuse.active
  -- the damaged store still has the files of the shelf
  have hledger : Ledger damaged := hinuse.toLedger.of_rows
    (by rw [World.allRows, hfiles]; exact List.Perm.refl _) hlog
  have hrec : Recoverable policy damaged.restart names :=
    { toFiled := hinuse.toFiled.of_same (fun n => by rw [← hfiles]; rfl)
        (hledger.unchanged ⟨rfl, rfl, rfl⟩) hlog
      listed := fun r hr => by
        obtain ⟨r₀, hr₀, hname⟩ := hrows r hr
        rw [hname]
        exact hinuse.recoverable.listed r₀ hr₀
      single := fun hone => absurd hone hunsealed }
  have hpost : wp (timely policy) (openPartitioned policy) (fun r w' => r = .ok () ∧ Unchanged w w' ∧
      w'.handles () = w.handles ()) damaged.restart := by
    refine hrec.wp_open (fun _ _ _ he => he.1) (fun _ _ he => he.2 rfl) (fun _ _ _ _ _ _ => trivial)
      (fun a' names' w' hinuse' hnames ha' hlog' _ => ⟨rfl, ?_⟩) fun e w' _ hnot => absurd hready hnot
    obtain ⟨rfl, hfiles'⟩ := hnames (by rw [hinit]; simp)
    have hfiles'' : w'.files = w.files := hfiles'.trans hfiles
    refine ⟨⟨hfiles'', hlog'.trans hlog, ?_⟩, ?_⟩
    · rw [hinuse'.ranges, hinuse.ranges, shelfRanges_of_files hfiles'']
    · obtain ⟨init', hinit'⟩ := hinuse'.active
      have hname : a'.name = a.name :=
        (List.singleton_inj.1 (List.append_inj' (hinit.symm.trans hinit') rfl).2).symm
      have hplace := hinuse'.named
      rw [hname] at hplace
      obtain ⟨hstart, hordinal⟩ := Prod.mk.inj (hplace.unique hinuse.named)
      rw [ha', ha]
      obtain ⟨n, s, o⟩ := a
      obtain ⟨n', s', o'⟩ := a'
      obtain rfl : n' = n := hname
      obtain rfl : s' = s := hstart
      obtain rfl : o' = o := hordinal
      rfl
  exact hopen.post hpost

end Runs

attribute [local instance] SerdeJson.limited

/-- After a rotation all ranges are lost, and come back. -/
theorem damage_repaired_allLost : ∃ tr,
    play (stopInRotation 31) (Config.idle Unit World.empty) = some tr ∧
    (loseRanges (lastOf (Config.idle Unit World.empty) tr).st).ranges = [] ∧
    Unchanged (lastOf (Config.idle Unit World.empty) tr).st
      (reopenAtOne (loseRanges (lastOf (Config.idle Unit World.empty) tr).st)).2 := by
  have hplay : ((play (stopInRotation 31) (Config.idle Unit World.empty)).map fun tr =>
      checks isOfPolicy (Config.idle Unit World.empty) tr &&
      (((lastOf (Config.idle Unit World.empty) tr).lock ()).writer.isNone &&
      ((lastOf (Config.idle Unit World.empty) tr).st.handles ()).isSome) &&
      hasCatalogRow (lastOf (Config.idle Unit World.empty) tr).st) = some true := by
    decide +kernel
  obtain ⟨tr, htr, hchecks⟩ := Option.map_eq_some_iff.1 hplay
  obtain ⟨hchecks, hcatalog⟩ := Bool.and_eq_true_iff.1 hchecks
  obtain ⟨hpolicy, hchecks⟩ := Bool.and_eq_true_iff.1 hchecks
  obtain ⟨hfree, hheld⟩ := Bool.and_eq_true_iff.1 hchecks
  have hrun := stopsAnytime_of_play htr hpolicy fun t e => mem_stopInRotation
  have hfiles : (loseRanges (lastOf (Config.idle Unit World.empty) tr).st).files =
      (lastOf (Config.idle Unit World.empty) tr).st.files := rfl
  refine ⟨tr, htr, ranges_loseRanges _, ?_⟩
  refine (damage_repaired hrun (Option.isNone_iff_eq_none.1 hfree) (Option.isSome_iff_ne_none.1 hheld) hfiles
    rfl (catalogReady_loseRanges hcatalog) (fun r hr => ?_) ?_ (runs_reopenAtOne _)).2.1
  · rw [ranges_loseRanges] at hr
    cases hr
  · simp [World.unsealed, ranges_loseRanges]

end Events
