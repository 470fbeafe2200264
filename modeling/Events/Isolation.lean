import Events.Namespaces
import Events.Reopening

/-!
# Partitions are isolated

What the streams of one partition answer among the operations of all partitions, against a run of its own
operations alone. The two runs share no more than the policy of the namespaces, unless the cache drops the
partition's stream in one of them only: then the store is opened once more, beside a stream that is in use.

* **`settledActive`** — the partition that opening a store makes active where nothing is to be repaired;
  `eval_openPartitioned_settled` — such an open changes nothing.
* **`Alike`** — the same store in both runs; **`Matched`** — and the same streams on it.
* **`Along`** — the condition on the runs: a stream that was opened beside another is used only while it
  has the active partition of the store in memory.
* **`partitions_isolated`** — the result on runs.
-/

namespace Events.Partitions

open Proc Program
open Events.Pool (Path)

/-! ## Opening a settled store -/

/-- The migrations of the catalog are recorded. -/
def Migrated (applied : List MigrationRow) : Prop :=
  ∀ m ∈ catalogMigrations, (applied.find? fun row => row.name = m.name).map MigrationRow.checksum =
    some m.checksum

instance (applied : List MigrationRow) : Decidable (Migrated applied) :=
  inferInstanceAs (Decidable (∀ _ ∈ _, _))

/-- The active partition of the open ranges of a catalog, if there is just one and its file is there. -/
def activeOf (w : World Unit) : List EventFileRange → Option ActivePartition
  | [r] =>
    match parsePartitionName r.name with
    | .ok (startMs, ordinal) => if (w.files.lookup r.path).isSome then some ⟨r.name, startMs, ordinal⟩ else none
    | .error _ => none
  | _ => none

/-- The partition that an open makes active, where it has nothing to create or to repair. -/
def settledActive (w : World Unit) : Option ActivePartition :=
  match w.catalog with
  | none => none
  | some d =>
    match d.migrations, d.ranges with
    | some applied, some ranges =>
      if Migrated applied ∧ ∀ r ∈ ranges, (parsePartitionName r.name).isOk then
        activeOf w (ranges.filter fun r => !r.isSealed)
      else none
    | _, _ => none

/-- What `settledActive` has found. -/
structure Settled (w : World Unit) (a : ActivePartition) : Prop where
  catalog : ∃ d applied, w.catalog = some d ∧ d.migrations = some applied ∧ Migrated applied ∧
    d.ranges = some w.ranges
  names : ∀ r ∈ w.ranges, (parsePartitionName r.name).isOk
  active : ∃ r, (w.ranges.filter fun r => !r.isSealed) = [r] ∧ r.name = a.name ∧
    parsePartitionName r.name = .ok (a.startMs, a.ordinal) ∧ (w.files.lookup r.path).isSome

theorem settled_of_settledActive {w : World Unit} {a : ActivePartition} (h : settledActive w = some a) :
    Settled w a := by
  unfold settledActive at h
  split at h
  · cases h
  rename_i d hcatalog
  split at h
  · rename_i applied ranges happlied hranges
    have heq : w.ranges = ranges := by simp [World.ranges, hcatalog, hranges]
    split at h
    · rename_i hok
      refine ⟨⟨d, applied, hcatalog, happlied, hok.1, by rw [heq, hranges]⟩, heq ▸ hok.2, ?_⟩
      rw [heq]
      unfold activeOf at h
      split at h
      · rename_i r hr
        split at h
        · rename_i startMs ordinal hparse
          split at h
          · rename_i hfile
            obtain rfl := Option.some.inj h
            exact ⟨r, hr, rfl, hparse, hfile⟩
          · cases h
        · cases h
      · cases h
    · cases h
  · cases h

theorem checkRangeNames_eq {ranges : List EventFileRange}
    (h : ∀ r ∈ ranges, (parsePartitionName r.name).isOk) : checkRangeNames ranges = pure () := by
  induction ranges with
  | nil => rfl
  | cons range ranges ih =>
    have hrange := h range List.mem_cons_self
    cases hparse : parsePartitionName range.name with
    | error e =>
      rw [hparse] at hrange
      cases hrange
    | ok _ =>
      unfold checkRangeNames ofAbort
      rw [hparse]
      exact ih fun r hr => h r (List.mem_cons_of_mem _ hr)

/-- Recorded migrations are only verified. -/
theorem runPendingMigrations_eq {ref : DbRef} {applied : List MigrationRow} {ms : List Migration}
    (h : ∀ m ∈ ms, (applied.find? fun row => row.name = m.name).map MigrationRow.checksum =
      some m.checksum) : runPendingMigrations ref applied ms = pure () := by
  induction ms with
  | nil => rfl
  | cons m ms ih =>
    obtain ⟨row, hrow, hchecksum⟩ := Option.map_eq_some_iff.1 (h m List.mem_cons_self)
    unfold runPendingMigrations runMigration
    rw [hrow]
    show (verifyMigrationChecksum m row.checksum).bind _ = _
    unfold verifyMigrationChecksum
    rw [if_neg (not_not.2 hchecksum)]
    exact ih fun m hm => h m (List.mem_cons_of_mem _ hm)

section Settled

variable {w : World Unit} {a : ActivePartition} {rotation : RotationPolicy} {ref : DbRef}

theorem calm_calm : Calm (calm ()) := fun _ _ _ he => he

/-- A database that is there is only opened. -/
theorem wp_buildDatabase_present {Q : Except Abort Unit → World Unit → Prop} (hdb : (w.db ref).isSome)
    (hok : Q (.ok ()) w) : wp (calm ()) (buildDatabase ref) Q w := by
  intro e he
  have hstep : World.step () (.buildDatabase ref) e w = (.ok (), w) := by
    simp [World.step, he.1, hdb]
  refine ⟨trivial, ?_⟩
  show wp (calm ()) (orEs (World.step () (.buildDatabase ref) e w).1) Q
    (World.step () (.buildDatabase ref) e w).2
  rw [hstep]
  exact hok

theorem wp_openCatalog_settled {Q : Except Abort Unit → World Unit → Prop} (h : Settled w a)
    (hok : Q (.ok ()) w) : wp (calm ()) openCatalog Q w := by
  obtain ⟨d, applied, hcatalog, happlied, hmigrated, -⟩ := h.catalog
  have hdb : w.db .catalog = some d := hcatalog
  unfold openCatalog
  simp only [bind_eq]
  rw [wp_bind]
  apply wp_buildDatabase_present (by rw [hdb]; rfl)
  show wp (calm ()) ((configureDatabase .catalog).bind _) Q w
  rw [wp_bind]
  refine wp_configureDatabase trivial ?_ fun err hC => absurd calm_calm hC
  show wp (calm ()) ((getConnection .catalog).bind _) Q w
  rw [wp_bind]
  refine wp_getConnection trivial (fun _ => ?_) fun err he => absurd he (by simp [calm_calm, hdb])
  -- the table of the migrations is there, and each one is recorded
  show wp (calm ()) ((sql .catalog .ensureMigrationsTable).bind _) Q w
  rw [wp_bind]
  refine wp_sql trivial (fun d₁ _ d₂ hd hex => ⟨trivial, ?_⟩) fun err he => absurd he ?_
  · obtain rfl : d = d₁ := Option.some.inj (hdb.symm.trans hd)
    have hsame : w.setDb .catalog d₂ = w := by
      have hd₂ := Stmt.exec_ensureMigrationsTable.1 hex
      rw [happlied] at hd₂
      have heq : d₂ = d := by
        rw [← hd₂]
        show { d with migrations := some applied } = d
        rw [← happlied]
      rw [heq]
      show { w with catalog := some d } = w
      rw [← hcatalog]
    show wp (calm ()) ((sql .catalog .loadAppliedMigrations).bind _) Q (w.setDb .catalog d₂)
    rw [hsame, wp_bind]
    refine wp_sql trivial (fun d₁ rows d₂ hd hex => ⟨trivial, ?_⟩) fun err he => absurd he ?_
    · obtain rfl : d = d₁ := Option.some.inj (hdb.symm.trans hd)
      obtain ⟨hrows, -⟩ := Stmt.exec_loadAppliedMigrations.1 hex
      obtain rfl : applied = rows := Option.some.inj (happlied.symm.trans hrows)
      show wp (calm ()) (runPendingMigrations .catalog applied catalogMigrations) Q w
      rw [runPendingMigrations_eq hmigrated]
      exact hok
    · rintro (hC | hnone | ⟨d₁, err, hd, hex⟩)
      · exact hC calm_calm
      · rw [hdb] at hnone
        cases hnone
      · obtain rfl : d = d₁ := Option.some.inj (hdb.symm.trans hd)
        rw [Stmt.exec_loadAppliedMigrations.2 ⟨happlied, rfl⟩] at hex
        cases hex
  · rintro (hC | hnone | ⟨d₁, err, hd, hex⟩)
    · exact hC calm_calm
    · rw [hdb] at hnone
      cases hnone
    · rw [(Stmt.exec_ensureMigrationsTable (a := ())).2 rfl] at hex
      cases hex

/-- The file of the open range becomes active. -/
theorem wp_initialize_settled {Q : Except Abort ActivePartition → World Unit → Prop} (h : Settled w a)
    (hok : Q (.ok a) w) : wp (calm ()) (initializeActivePartition rotation) Q w := by
  obtain ⟨d, applied, hcatalog, -, -, hranges⟩ := h.catalog
  obtain ⟨r, hopen, hname, hparse, hfile⟩ := h.active
  have hdb : (w.db (.eventFile r.path)).isSome := hfile
  have hsorted : ((w.ranges.insertionSort rangeLe).filter fun r => !r.isSealed) = [r] := by
    have hperm := (List.perm_insertionSort rangeLe w.ranges).filter fun r => !r.isSealed
    rw [hopen] at hperm
    exact List.perm_singleton.1 hperm
  have hnames : ∀ r ∈ w.ranges.insertionSort rangeLe, (parsePartitionName r.name).isOk :=
    fun r hr => h.names r ((List.perm_insertionSort rangeLe w.ranges).mem_iff.1 hr)
  rw [initializeActivePartition_eq, wp_bind]
  refine wp_getAllEventFileRanges (fun _ _ => trivial) (fun _ => ?_) fun err he => absurd he ?_
  · show wp (calm ()) ((checkRangeNames (w.ranges.insertionSort rangeLe)).bind _) Q w
    rw [checkRangeNames_eq hnames]
    show wp (calm ()) ((if _ then rebuildEventFileRanges else _).bind _) Q w
    rw [if_neg (by rw [hsorted]; simp)]
    show wp (calm ()) (openUnsealed rotation
      (maxRange ((w.ranges.insertionSort rangeLe).filter fun r => !r.isSealed))) Q w
    rw [hsorted]
    show wp (calm ()) ((ofAbort (parsePartitionName r.name)).bind _) Q w
    rw [hparse]
    show wp (calm ()) ((openPartitionDb r.path).bind _) Q w
    unfold openPartitionDb
    simp only [bind_eq]
    rw [wp_bind, wp_bind]
    apply wp_buildDatabase_present hdb
    refine wp_configureDatabase trivial ?_ fun err hC => absurd calm_calm hC
    show Q (.ok ⟨r.name, a.startMs, a.ordinal⟩) w
    rw [hname]
    exact hok
  · rintro (hC | hnone)
    · exact hC calm_calm
    · simp [hcatalog, hranges] at hnone

/-- **A settled store** is opened as it is. -/
theorem wp_openPartitioned_settled (rotation : RotationPolicy) (h : Settled w a) :
    wp (calm ()) (openPartitioned rotation)
    (fun r w' => r = .ok () ∧ w' = resume w (some (rotation, a))) w := by
  unfold openPartitioned
  simp only [bind_eq]
  rw [wp_bind]
  refine wp_look rfl trivial fun e he => ?_
  have hstep : (World.step () .createDirAll e w).1 = .ok () := by simp [World.step, he.1]
  rw [hstep]
  show wp (calm ()) (openCatalog.bind _) _ w
  rw [wp_bind]
  apply wp_openCatalog_settled h
  show wp (calm ()) ((initializeActivePartition rotation).bind _) _ w
  rw [wp_bind]
  apply wp_initialize_settled h
  intro e _
  refine ⟨trivial, rfl, ?_⟩
  show ({ w with handles := Function.update w.handles () (some (rotation, a)) } : World Unit) = resume w _
  unfold resume
  congr 1

end Settled

/-- No operation fails. -/
def CalmEnv (storeEnv : Nat → StoreEnv) : Prop :=
  ∀ i, (storeEnv i).fault = none ∧ ∀ j, (storeEnv i).statementFault j = none

theorem settledActive_restart (w : World Unit) : settledActive w.restart = settledActive w := rfl

/-- An open of a settled store leaves it alone. -/
theorem openStore_settled {s : EventNamespaces} {p : PartitionDescriptor} {storeEnv : Nat → StoreEnv}
    {a : ActivePartition} (h : settledActive (s.stores (p.path s.root)) = some a)
    (hcalm : CalmEnv storeEnv) : s.openStore p storeEnv =
      (.ok (), resume (s.stores (p.path s.root)) (some (s.rotationPolicy, a))) := by
  have hsettled := settled_of_settledActive ((settledActive_restart _).trans h)
  obtain ⟨hok, hw⟩ := wp_eval (C := calm ()) (fun i _ _ => hcalm i) 0
    (wp_openPartitioned_settled s.rotationPolicy hsettled)
  exact Prod.ext hok hw

/-! ## Two runs -/

/-- What the stream that is held under the name `x` keeps in memory. -/
def EventNamespaces.innerOf (p : PartitionDescriptor) (x : Nat) (s : EventNamespaces) :
    Option (RotationPolicy × ActivePartition) :=
  (s.streamAt p x).bind fun stream => stream.2.inner

/-- The same store in both systems, and the same names for its streams. -/
structure Alike (p : PartitionDescriptor) (s t : EventNamespaces) : Prop where
  root : t.root = s.root
  rotationPolicy : t.rotationPolicy = s.rotationPolicy
  store : (t.stores (p.path t.root)).restart = (s.stores (p.path s.root)).restart
  held : ∀ x, (t.held p x).isSome = (s.held p x).isSome
  owned : s.Owned
  owned' : t.Owned

/-- The streams of the partition are the same in both systems, the stream `n` being `f n` in the other. -/
structure Matched (p : PartitionDescriptor) (f : Nat → Nat) (s t : EventNamespaces) : Prop where
  held : ∀ x, t.held p x = (s.held p x).map f
  cached : ∀ c ∈ s.cache.stores, ∀ c' ∈ t.cache.stores, c.key = p.cacheKey → c'.key = p.cacheKey →
    c'.stream = f c.stream
  streams : ∀ (n : Nat) (st : Stream), s.streams[n]? = some st → st.directory = p.path s.root →
    t.streams[f n]? = some st
  injective : ∀ m n, s.directoryOf m = some (p.path s.root) → s.directoryOf n = some (p.path s.root) →
    f m = f n → m = n

section Runs

open EventNamespaces

variable {s s' t : EventNamespaces} {p : PartitionDescriptor} {f : Nat → Nat} {x n : Nat} {env : OpenEnv}
  {storeEnv : Nat → StoreEnv} {c c' : CachedStore}

theorem Alike.symm (h : Alike p s t) : Alike p t s where
  root := h.root.symm
  rotationPolicy := h.rotationPolicy.symm
  store := h.store.symm
  held x := (h.held x).symm
  owned := h.owned'
  owned' := h.owned

theorem Alike.openStore_eq (h : Alike p s t) (storeEnv : Nat → StoreEnv) :
    t.openStore p storeEnv = s.openStore p storeEnv := by
  unfold EventNamespaces.openStore
  rw [h.rotationPolicy, h.store]

theorem Alike.resume_eq (h : Alike p s t) (inner : Option (RotationPolicy × ActivePartition)) :
    resume (t.stores (p.path t.root)) inner = resume (s.stores (p.path s.root)) inner := by
  have hrestart := congrArg (fun w => resume w inner) h.store
  exact hrestart

theorem Alike.settled_eq (h : Alike p s t) :
    settledActive (t.stores (p.path t.root)) = settledActive (s.stores (p.path s.root)) := by
  rw [← settledActive_restart, h.store, settledActive_restart]

/-! ### Operations of other partitions -/

theorem Alike.untouched (h : Alike p s t) (hu : Untouched p s s') (ho : s'.Owned) : Alike p s' t where
  root := h.root.trans hu.root.symm
  rotationPolicy := h.rotationPolicy.trans hu.rotationPolicy.symm
  store := by rw [hu.root, hu.store, h.store]
  held x := by rw [hu.held, h.held]
  owned := ho
  owned' := h.owned'

theorem Matched.untouched (h : Matched p f s t) (hu : Untouched p s s') : Matched p f s' t where
  held x := by rw [hu.held, h.held]
  cached c hc c' hc' hkey hkey' := by
    obtain ⟨c₀, hc₀, hkey₀, hstream⟩ := hu.cached c hc hkey
    rw [← hstream]
    exact h.cached c₀ hc₀ c' hc' hkey₀ hkey'
  streams n st hst hdirectory := by
    rw [hu.root] at hdirectory
    exact h.streams n st (hu.streams n st hst hdirectory) hdirectory
  injective m n hm hn heq := by
    have hback : ∀ k, s'.directoryOf k = some (p.path s'.root) →
        s.directoryOf k = some (p.path s.root) := by
      intro k hk
      obtain ⟨st, hst, hdirectory⟩ := Option.map_eq_some_iff.1 hk
      rw [hu.root] at hdirectory
      exact Option.map_eq_some_iff.2 ⟨st, hu.streams k st hst hdirectory, hdirectory⟩
    exact h.injective m n (hback m hm) (hback n hn) heq

/-! ### Opens that both systems answer alike -/

theorem Alike.found (h : Alike p s t) (hs : (s.found p x env c).Owned) (ht : (t.found p x env c').Owned) :
    Alike p (s.found p x env c) (t.found p x env c') where
  root := h.root
  rotationPolicy := h.rotationPolicy
  store := h.store
  held y := by
    show (hold p x c'.stream t.held p y).isSome = (hold p x c.stream s.held p y).isSome
    unfold hold
    split
    · rfl
    · exact h.held y
  owned := hs
  owned' := ht

theorem Matched.found (h : Matched p f s t)
    (hfind : (s.cache.evictIdle env.first).find p.cacheKey = some c)
    (hfind' : (t.cache.evictIdle env.first).find p.cacheKey = some c') :
    Matched p f (s.found p x env c) (t.found p x env c') where
  held y := by
    obtain ⟨hmem, hkey⟩ := find_eq_some hfind
    obtain ⟨hmem', hkey'⟩ := find_eq_some hfind'
    show hold p x c'.stream t.held p y = (hold p x c.stream s.held p y).map f
    unfold hold
    split
    · rw [h.cached c (mem_evictIdle.1 hmem).1 c' (mem_evictIdle.1 hmem').1 hkey hkey']
      rfl
    · exact h.held y
  cached k hk k' hk' hkey hkey' := by
    obtain ⟨k₀, hk₀, hkey₀, hstream⟩ := fromCache_touch _ _ _ _ k hk
    obtain ⟨k₁, hk₁, hkey₁, hstream'⟩ := fromCache_touch _ _ _ _ k' hk'
    rw [← hstream, ← hstream']
    exact h.cached k₀ hk₀ k₁ hk₁ (hkey₀.trans hkey) (hkey₁.trans hkey')
  streams := h.streams
  injective := h.injective

/-- Both systems have opened the store. -/
theorem Alike.added (h : Alike p s t) (hs : (s.added p x env storeEnv).Owned)
    (ht : (t.added p x env storeEnv).Owned) :
    Alike p (s.added p x env storeEnv) (t.added p x env storeEnv) where
  root := h.root
  rotationPolicy := h.rotationPolicy
  store := by
    have hopen := h.openStore_eq storeEnv
    show (Function.update t.stores (p.path t.root) (t.openStore p storeEnv).2.restart
      (p.path t.root)).restart = (Function.update s.stores (p.path s.root)
        (s.openStore p storeEnv).2.restart (p.path s.root)).restart
    rw [Function.update_self, Function.update_self, hopen]
  held y := by
    show (hold p x _ t.held p y).isSome = (hold p x _ s.held p y).isSome
    unfold hold
    split
    · rfl
    · exact h.held y
  owned := hs
  owned' := ht

theorem Alike.failed (h : Alike p s t) (hs : (s.failed p env storeEnv).Owned)
    (ht : (t.failed p env storeEnv).Owned) :
    Alike p (s.failed p env storeEnv) (t.failed p env storeEnv) where
  root := h.root
  rotationPolicy := h.rotationPolicy
  store := by
    have hopen := h.openStore_eq storeEnv
    show (Function.update t.stores (p.path t.root) (t.openStore p storeEnv).2.restart
      (p.path t.root)).restart = (Function.update s.stores (p.path s.root)
        (s.openStore p storeEnv).2.restart (p.path s.root)).restart
    rw [Function.update_self, Function.update_self, hopen]
  held := h.held
  owned := hs
  owned' := ht

/-- The number of a stream after a new one. -/
theorem getElem?_added_of_lt (hok : (s.openStore p storeEnv).1 = .ok ()) (hn : n < s.streams.length) :
    (s.added p x env storeEnv).streams[n]? = s.streams[n]? := by
  unfold EventNamespaces.added withOpened
  simp [hok, Except.isOk, Except.toBool, List.getElem?_append_left hn]

theorem getElem?_added_cases {st : Stream} (hok : (s.openStore p storeEnv).1 = .ok ())
    (hst : (s.added p x env storeEnv).streams[n]? = some st) :
    s.streams[n]? = some st ∧ n < s.streams.length ∨ n = s.streams.length ∧
      st = ⟨p.path s.root, (s.openStore p storeEnv).2.handles ()⟩ := by
  unfold EventNamespaces.added withOpened at hst
  simp only [hok, Except.isOk, Except.toBool, if_true] at hst
  by_cases hlt : n < s.streams.length
  · rw [List.getElem?_append_left hlt] at hst
    exact .inl ⟨hst, hlt⟩
  · rw [List.getElem?_append_right (not_lt.1 hlt)] at hst
    have hzero := (List.getElem?_eq_some_iff.1 hst).1
    obtain rfl := List.mem_singleton.1 (List.mem_of_getElem? hst)
    rw [List.length_singleton] at hzero
    exact .inr ⟨by omega, rfl⟩

/-- The new streams correspond. -/
theorem Matched.added (h : Matched p f s t) (ha : Alike p s t)
    (hok : (s.openStore p storeEnv).1 = .ok ()) :
    Matched p (Function.update f s.streams.length t.streams.length) (s.added p x env storeEnv)
      (t.added p x env storeEnv) := by
  have hopen := ha.openStore_eq storeEnv
  have hok' : (t.openStore p storeEnv).1 = .ok () := by rw [hopen, hok]
  have hpath : p.path t.root = p.path s.root := by rw [ha.root]
  -- what was there before keeps its number
  have hold_f : ∀ k, k < s.streams.length →
      Function.update f s.streams.length t.streams.length k = f k :=
    fun k hk => Function.update_of_ne (Nat.ne_of_lt hk) _ _
  have hnumber : ∀ k, s.directoryOf k = some (p.path s.root) →
      k < s.streams.length ∧ f k < t.streams.length := by
    intro k hk
    obtain ⟨st, hst, hdirectory⟩ := Option.map_eq_some_iff.1 hk
    exact ⟨(List.getElem?_eq_some_iff.1 hst).1,
      (List.getElem?_eq_some_iff.1 (h.streams k st hst hdirectory)).1⟩
  refine ⟨fun y => ?_, fun c hc c' hc' hkey hkey' => ?_, fun n st hst hdirectory => ?_,
    fun m n hm hn heq => ?_⟩
  · show hold p x t.streams.length t.held p y = (hold p x s.streams.length s.held p y).map _
    unfold hold
    split
    · rw [Option.map_some, Function.update_self]
    · rw [h.held y]
      cases hn : s.held p y with
      | none => rfl
      | some n =>
        rw [Option.map_some, Option.map_some, hold_f n (hnumber n (ha.owned.held p y n hn)).1]
  · rcases mem_afterMiss hc with ⟨-, hstream⟩ | ⟨hne, -⟩
    · rcases mem_afterMiss hc' with ⟨-, hstream'⟩ | ⟨hne', -⟩
      · rw [hstream, hstream', Function.update_self]
      · exact absurd hkey' hne'
    · exact absurd hkey hne
  · rcases getElem?_added_cases hok hst with ⟨hold, hlt⟩ | ⟨rfl, rfl⟩
    · have hmatched := h.streams n st hold hdirectory
      rw [hold_f n hlt, getElem?_added_of_lt hok' (List.getElem?_eq_some_iff.1 hmatched).1]
      exact hmatched
    · rw [Function.update_self, getElem?_added hok', hopen, hpath]
  · have hcases : ∀ k, (s.added p x env storeEnv).directoryOf k = some (p.path s.root) →
        k = s.streams.length ∨ s.directoryOf k = some (p.path s.root) := by
      intro k hk
      obtain ⟨st, hst, hdirectory⟩ := Option.map_eq_some_iff.1 hk
      rcases getElem?_added_cases hok hst with ⟨hold, -⟩ | ⟨hlast, -⟩
      · exact .inr (Option.map_eq_some_iff.2 ⟨st, hold, hdirectory⟩)
      · exact .inl hlast
    rcases hcases m hm with rfl | hm'
    · rcases hcases n hn with rfl | hn'
      · rfl
      · rw [Function.update_self, hold_f n (hnumber n hn').1] at heq
        have hlt := (hnumber n hn').2
        omega
    · rcases hcases n hn with rfl | hn'
      · rw [Function.update_self, hold_f m (hnumber m hm').1] at heq
        have hlt := (hnumber m hm').2
        omega
      · rw [hold_f m (hnumber m hm').1, hold_f n (hnumber n hn').1] at heq
        exact h.injective m n hm' hn' heq

theorem Matched.failed {e : Abort} (h : Matched p f s t) (ha : Alike p s t)
    (herr : (s.openStore p storeEnv).1 = .error e) :
    Matched p f (s.failed p env storeEnv) (t.failed p env storeEnv) := by
  have herr' : (t.openStore p storeEnv).1 = .error e := by rw [ha.openStore_eq storeEnv, herr]
  have hstreams : (s.failed p env storeEnv).streams = s.streams := by
    unfold EventNamespaces.failed withOpened
    simp [herr, Except.isOk, Except.toBool]
  have hstreams' : (t.failed p env storeEnv).streams = t.streams := by
    unfold EventNamespaces.failed withOpened
    simp [herr', Except.isOk, Except.toBool]
  refine ⟨h.held, fun c hc c' hc' hkey hkey' => ?_, fun n st hst hdirectory => ?_,
    fun m n hm hn heq => ?_⟩
  · exact h.cached c (mem_evictIdle.1 hc).1 c' (mem_evictIdle.1 hc').1 hkey hkey'
  · rw [hstreams] at hst
    rw [hstreams']
    exact h.streams n st hst hdirectory
  · unfold directoryOf at hm hn
    rw [hstreams] at hm hn
    exact h.injective m n hm hn heq

/-! ### An open that only one system comes to -/

/-- One system has found a stream, and the other one has opened the settled store beside one. -/
theorem Alike.found_added {a : ActivePartition} (h : Alike p s t)
    (hsettled : settledActive (t.stores (p.path t.root)) = some a) (hcalm : CalmEnv storeEnv)
    (hs : (s.found p x env c).Owned) (ht : (t.added p x env storeEnv).Owned) :
    Alike p (s.found p x env c) (t.added p x env storeEnv) where
  root := h.root
  rotationPolicy := h.rotationPolicy
  store := by
    show (Function.update t.stores (p.path t.root) (t.openStore p storeEnv).2.restart
      (p.path t.root)).restart = (s.stores (p.path s.root)).restart
    rw [Function.update_self, openStore_settled hsettled hcalm]
    exact h.store
  held y := by
    show (hold p x _ t.held p y).isSome = (hold p x _ s.held p y).isSome
    unfold hold
    split
    · rfl
    · exact h.held y
  owned := hs
  owned' := ht

/-! ### Calls -/

/-- A method that leaves the same store. -/
theorem Alike.called [SerdeJson] {m : Method} {k : Nat} {st st' : Stream} (h : Alike p s t)
    (hst : s.streams[n]? = some st) (hdirectory : st.directory = p.path s.root)
    (hst' : t.streams[k]? = some st') (hdirectory' : st'.directory = p.path t.root)
    (hstore : (m.eval t.rotationPolicy storeEnv (resume (t.stores st'.directory) st'.inner)).2.restart =
      (m.eval s.rotationPolicy storeEnv (resume (s.stores st.directory) st.inner)).2.restart) :
    Alike p (s.called m storeEnv n st) (t.called m storeEnv k st') where
  root := h.root
  rotationPolicy := h.rotationPolicy
  store := by
    unfold EventNamespaces.called
    simp only [← hdirectory, ← hdirectory', Function.update_self]
    rw [hstore]
  held := h.held
  owned := h.owned.called m storeEnv hst
  owned' := h.owned'.called m storeEnv hst'

/-- A method of the corresponding stream. -/
theorem Matched.called [SerdeJson] {m : Method} {st : Stream} (h : Matched p f s t)
    (hst : s.streams[n]? = some st) (hdirectory : st.directory = p.path s.root)
    (heval : m.eval t.rotationPolicy storeEnv (resume (t.stores st.directory) st.inner) =
      m.eval s.rotationPolicy storeEnv (resume (s.stores st.directory) st.inner)) :
    Matched p f (s.called m storeEnv n st) (t.called m storeEnv (f n) st) where
  held := h.held
  cached := h.cached
  streams k st' hst' hdirectory' := by
    have hmatched := h.streams n st hst hdirectory
    rw [getElem?_called hst] at hst'
    rw [getElem?_called hmatched]
    by_cases hk : k = n
    · subst hk
      rw [if_pos rfl] at hst' ⊢
      rw [heval]
      exact hst'
    · have hold : s.streams[k]? = some st' := by rwa [if_neg hk] at hst'
      -- two streams of the partition have two counterparts
      have hne : f k ≠ f n := by
        intro heq
        refine hk (h.injective k n ?_ ?_ heq)
        · exact Option.map_eq_some_iff.2 ⟨st', hold, hdirectory'⟩
        · exact Option.map_eq_some_iff.2 ⟨st, hst, hdirectory⟩
      rw [if_neg hne]
      exact h.streams k st' hold hdirectory'
  injective k l hk hl heq := by
    have hback : ∀ j, (s.called m storeEnv n st).directoryOf j = some (p.path s.root) →
        s.directoryOf j = some (p.path s.root) := by
      intro j hj
      unfold directoryOf at hj ⊢
      rw [getElem?_called hst] at hj
      by_cases hjn : j = n
      · subst hjn
        rw [if_pos rfl] at hj
        rw [hst]
        exact hj
      · rwa [if_neg hjn] at hj
    exact h.injective k l (hback k hk) (hback l hl) heq

end Runs

/-! ### Reads -/

/-- The operations of a read, which do not ask what the stream keeps in memory. -/
def Reading (o : StoreOp) : Prop := o.isPassive = true ∧ o ≠ .readActive

theorem step_reading {o : StoreOp} (ho : Reading o) (e : StoreEnv) (w : World Unit)
    (inner inner' : Option (RotationPolicy × ActivePartition)) :
    World.step () o e (resume w inner) =
      ((World.step () o e (resume w inner')).1, resume w inner) := by
  refine Prod.ext ?_ (step_passive ho.1)
  obtain ⟨hpassive, hread⟩ := ho
  have hdb : ∀ ref, (resume w inner).db ref = (resume w inner').db ref := fun ref => by
    cases ref <;> rfl
  cases o <;> simp only [StoreOp.isPassive, Bool.false_eq_true] at hpassive <;> try rfl
  case readActive => exact absurd rfl hread
  case getConnection ref =>
    show (World.step () (.getConnection ref) e (resume w inner)).1 =
      (World.step () (.getConnection ref) e (resume w inner')).1
    simp only [World.step, hdb]
    split <;> rfl
  case sql ref q =>
    show (World.stepSql _ ref q e).1 = (World.stepSql _ ref q e).1
    unfold World.stepSql
    rw [hdb]
    split
    · rfl
    · rfl
    · split <;> rfl

/-- **A read answers the same** whatever the stream keeps in memory. -/
theorem eval_reading [SerdeJson] {α : Type} {body : StoreProgram α} (hbody : body.All Reading)
    (g : α → StreamAns)
    (storeEnv : Nat → StoreEnv) (i : Nat) (w : World Unit)
    (inner inner' : Option (RotationPolicy × ActivePartition)) :
    eval oneStream storeEnv i ((lift body).bind fun a => pure (g a)) (resume w inner, ()) =
      ((eval oneStream storeEnv i ((lift body).bind fun a => pure (g a)) (resume w inner', ())).1,
        (resume w inner, ())) := by
  induction body generalizing i with
  | done r => cases r <;> rfl
  | call o k ih =>
    have hcall : ∀ inner, eval oneStream storeEnv i ((lift (.call o k)).bind fun a => pure (g a))
        (resume w inner, ()) =
      eval oneStream storeEnv (i + 1)
        ((lift (k (World.step () o (storeEnv i) (resume w inner)).1)).bind fun a => pure (g a))
        ((World.step () o (storeEnv i) (resume w inner)).2, ()) := fun _ => rfl
    have hstep := step_reading hbody.1 (storeEnv i) w inner inner'
    have hstep' := congrArg Prod.snd (step_reading hbody.1 (storeEnv i) w inner' inner')
    rw [hcall, hcall, hstep, hstep']
    exact ih _ (hbody.2 _) (i + 1)

theorem eval_loadAfterVersion [SerdeJson] (cursor : EventStreamVersion) (limit : Nat)
    (rotation : RotationPolicy)
    (storeEnv : Nat → StoreEnv) (w : World Unit)
    (inner inner' : Option (RotationPolicy × ActivePartition)) :
    (Method.loadAfterVersion cursor limit).eval rotation storeEnv (resume w inner) =
      (((Method.loadAfterVersion cursor limit).eval rotation storeEnv (resume w inner')).1,
        resume w inner) := by
  have hreads : (loadAfterVersion cursor limit).All Reading :=
    all_loadAfterVersion (fun _ => ⟨rfl, by simp⟩) (fun _ _ h => ⟨h, by simp⟩) cursor limit
  have heval := eval_reading hreads StreamAns.loaded storeEnv 0 w inner inner'
  have hanswer := congrArg Prod.fst heval
  have hstore := congrArg (fun r => r.2.1) heval
  exact Prod.ext hanswer hstore

/-! ## The condition on the runs -/

/-- What the stream that is held under the name `x` keeps in memory is the active partition of its store. -/
def Current (p : PartitionDescriptor) (x : Nat) (s : EventNamespaces) : Prop :=
  s.innerOf p x = (settledActive (s.stores (p.path s.root))).map fun a => (s.rotationPolicy, a)

instance (p : PartitionDescriptor) (x : Nat) (s : EventNamespaces) : Decidable (Current p x s) :=
  inferInstanceAs (Decidable (_ = _))

/-- An open finds a stream in the caches of both systems, or in neither. -/
def Agrees (s t : EventNamespaces) : Op → Bool
  | .openPartition p _ env _ => !env.present || decide (Misses p env s.cache ↔ Misses p env t.cache)
  | .call _ _ _ _ => true

/-- The condition on an operation. Where only one system opens the store, which has a stream already, the
store is settled and no operation fails; a stream is used from then on only while it is current, but for
reads. `agreed` says that this has not happened yet. -/
def Harmless (agreed : Bool) (s t : EventNamespaces) : Op → Prop
  | .openPartition p x env storeEnv => Agrees s t (.openPartition p x env storeEnv) = true ∨
      (settledActive (s.stores (p.path s.root))).isSome ∧ CalmEnv storeEnv
  | .call _ _ (.loadAfterVersion _ _) _ => True
  | .call p x _ _ => agreed = true ∨ Current p x s ∧ Current p x t

/-- The condition on the run of all operations from `s` and that of the partition's own from `t`. -/
def Along [SerdeJson] (p : PartitionDescriptor) : Bool → EventNamespaces → EventNamespaces → List Op → Prop
  | _, _, _, [] => True
  | agreed, s, t, op :: ops =>
    if op.partition = p then
      Harmless agreed s t op ∧ Along p (agreed && Agrees s t op) (op.step s).2 (op.step t).2 ops
    else Along p agreed (op.step s).2 t ops

/-- What is known of the two runs. -/
def Related (p : PartitionDescriptor) (agreed : Bool) (s t : EventNamespaces) : Prop :=
  Alike p s t ∧ (agreed = true → ∃ f, Matched p f s t)

section Related

open EventNamespaces

variable {agreed : Bool} {s t : EventNamespaces} {p : PartitionDescriptor} {x : Nat} {env : OpenEnv}
  {storeEnv : Nat → StoreEnv} {op : Op}

theorem Related.and_left {b : Bool} (h : Related p agreed s t) : Related p (agreed && b) s t :=
  ⟨h.1, fun hand => h.2 (Bool.and_eq_true_iff.1 hand).1⟩

/-- An open that only one system comes to. -/
theorem Harmless.settled (h : Harmless agreed s t (.openPartition p x env storeEnv))
    (hdisagree : Agrees s t (.openPartition p x env storeEnv) = false) :
    ∃ a, settledActive (s.stores (p.path s.root)) = some a ∧ CalmEnv storeEnv := by
  rcases h with hagree | ⟨hsettled, hcalm⟩
  · rw [hdisagree] at hagree
    cases hagree
  · obtain ⟨a, ha⟩ := Option.isSome_iff_exists.1 hsettled
    exact ⟨a, ha, hcalm⟩

/-- The operations of other partitions. -/
theorem Related.untouched [SerdeJson] (h : Related p agreed s t) (hne : op.partition ≠ p) :
    Related p agreed (op.step s).2 t := by
  have hu := h.1.owned.untouched hne
  refine ⟨h.1.untouched hu (h.1.owned.step op), fun hagreed => ?_⟩
  obtain ⟨f, hf⟩ := h.2 hagreed
  exact ⟨f, hf.untouched hu⟩

/-- An open. -/
theorem Related.openPartition (h : Related p agreed s t)
    (hc : Harmless agreed s t (.openPartition p x env storeEnv)) :
    (t.openPartition p x env storeEnv).1 = (s.openPartition p x env storeEnv).1 ∧
      Related p (agreed && Agrees s t (.openPartition p x env storeEnv))
        (s.openPartition p x env storeEnv).2 (t.openPartition p x env storeEnv).2 := by
  obtain ⟨ha, hmatched⟩ := h
  have hs := ha.owned.openPartition p x env storeEnv
  have ht := ha.owned'.openPartition p x env storeEnv
  cases hpresent : env.present with
  | false =>
    rw [openPartition_absent hpresent, openPartition_absent hpresent, ha.root]
    exact ⟨rfl, Related.and_left ⟨ha, hmatched⟩⟩
  | true =>
    cases hfind : (s.cache.evictIdle env.first).find p.cacheKey with
    | some c =>
      rw [openPartition_found hpresent hfind] at hs ⊢
      cases hfind' : (t.cache.evictIdle env.first).find p.cacheKey with
      | some c' =>
        rw [openPartition_found hpresent hfind'] at ht ⊢
        refine ⟨rfl, Related.and_left ⟨ha.found hs ht, fun hagreed => ?_⟩⟩
        obtain ⟨f, hf⟩ := hmatched hagreed
        exact ⟨f, hf.found hfind hfind'⟩
      | none =>
        -- only the partition's own run opens the store
        have hdisagree : Agrees s t (.openPartition p x env storeEnv) = false := by
          simp [Agrees, Misses, hpresent, hfind, hfind']
        obtain ⟨a, hsettled, hcalm⟩ := hc.settled hdisagree
        rw [← ha.settled_eq] at hsettled
        have hok : (t.openStore p storeEnv).1 = .ok () := by rw [openStore_settled hsettled hcalm]
        rw [openPartition_added hpresent hfind' hok] at ht ⊢
        rw [hdisagree, Bool.and_false]
        exact ⟨rfl, ha.found_added hsettled hcalm hs ht, fun hfalse => by cases hfalse⟩
    | none =>
      cases hfind' : (t.cache.evictIdle env.first).find p.cacheKey with
      | some c' =>
        -- only the run of all operations opens the store: the cache has dropped the stream
        rw [openPartition_found hpresent hfind'] at ht ⊢
        have hdisagree : Agrees s t (.openPartition p x env storeEnv) = false := by
          simp [Agrees, Misses, hpresent, hfind, hfind']
        obtain ⟨a, hsettled, hcalm⟩ := hc.settled hdisagree
        have hok : (s.openStore p storeEnv).1 = .ok () := by rw [openStore_settled hsettled hcalm]
        rw [openPartition_added hpresent hfind hok] at hs ⊢
        rw [hdisagree, Bool.and_false]
        exact ⟨rfl, (ha.symm.found_added hsettled hcalm ht hs).symm, fun hfalse => by cases hfalse⟩
      | none =>
        cases hopened : (s.openStore p storeEnv).1 with
        | ok u =>
          have hopened' : (t.openStore p storeEnv).1 = .ok () := by rw [ha.openStore_eq, hopened]
          rw [openPartition_added hpresent hfind hopened] at hs ⊢
          rw [openPartition_added hpresent hfind' hopened'] at ht ⊢
          refine ⟨rfl, Related.and_left ⟨ha.added hs ht, fun hagreed => ?_⟩⟩
          obtain ⟨f, hf⟩ := hmatched hagreed
          exact ⟨_, hf.added ha hopened⟩
        | error e =>
          have hopened' : (t.openStore p storeEnv).1 = .error e := by rw [ha.openStore_eq, hopened]
          rw [openPartition_failed hpresent hfind hopened] at hs ⊢
          rw [openPartition_failed hpresent hfind' hopened'] at ht ⊢
          refine ⟨rfl, Related.and_left ⟨ha.failed hs ht, fun hagreed => ?_⟩⟩
          obtain ⟨f, hf⟩ := hmatched hagreed
          exact ⟨f, hf.failed ha hopened⟩

/-- A method. -/
theorem Related.call [SerdeJson] {m : Method} (h : Related p agreed s t)
    (hc : Harmless agreed s t (.call p x m storeEnv)) :
    (t.call p x m storeEnv).1 = (s.call p x m storeEnv).1 ∧
      Related p agreed (s.call p x m storeEnv).2 (t.call p x m storeEnv).2 := by
  obtain ⟨ha, hmatched⟩ := h
  cases hn : s.held p x with
  | none =>
    have hn' : t.held p x = none := by
      rw [← Option.isNone_iff_eq_none, ← Option.not_isSome, ha.held, hn]
      rfl
    rw [call_none hn, call_none hn']
    exact ⟨rfl, ha, hmatched⟩
  | some n =>
    have hsome : (t.held p x).isSome := by
      rw [ha.held, hn]
      rfl
    obtain ⟨k, hk⟩ := Option.isSome_iff_exists.1 hsome
    obtain ⟨st, hst, hdirectory⟩ := ha.owned.stream hn
    obtain ⟨st', hst', hdirectory'⟩ := ha.owned'.stream hk
    rw [call_some hn hst, call_some hk hst']
    cases hagreed : agreed with
    | true =>
      -- the same stream in both systems
      obtain ⟨f, hf⟩ := hmatched hagreed
      have hfk : f n = k := by
        have hheld := hf.held x
        rw [hn, hk] at hheld
        exact (Option.some.inj hheld).symm
      have hsame := hf.streams n st hst hdirectory
      rw [hfk] at hsame
      obtain rfl := Option.some.inj (hsame.symm.trans hst')
      have heval : m.eval t.rotationPolicy storeEnv (resume (t.stores st.directory) st.inner) =
          m.eval s.rotationPolicy storeEnv (resume (s.stores st.directory) st.inner) := by
        have hresume := ha.resume_eq st.inner
        rw [← hdirectory', ← hdirectory] at hresume
        rw [ha.rotationPolicy, hresume]
      refine ⟨by rw [heval], ha.called hst hdirectory hst' hdirectory' (by rw [heval]), fun _ => ?_⟩
      exact ⟨f, hfk ▸ hf.called hst hdirectory heval⟩
    | false =>
      have hinner : s.innerOf p x = st.inner := by
        simp [innerOf, streamAt, hn, hst]
      have hinner' : t.innerOf p x = st'.inner := by
        simp [innerOf, streamAt, hk, hst']
      have hresume := ha.resume_eq st.inner
      rw [← hdirectory', ← hdirectory] at hresume
      by_cases hload : ∃ cursor limit, m = .loadAfterVersion cursor limit
      · obtain ⟨cursor, limit, rfl⟩ := hload
        have heval := eval_loadAfterVersion cursor limit t.rotationPolicy storeEnv
          (t.stores st'.directory) st'.inner st.inner
        have heval' := eval_loadAfterVersion cursor limit s.rotationPolicy storeEnv
          (s.stores st.directory) st.inner st.inner
        refine ⟨by rw [heval, hresume, ha.rotationPolicy], ?_, fun hfalse => by cases hfalse⟩
        refine ha.called hst hdirectory hst' hdirectory' ?_
        rw [heval, heval']
        have hstore := congrArg World.restart hresume
        exact hstore
      · have hcurrent : Current p x s ∧ Current p x t := by
          rw [hagreed] at hc
          cases m with
          | loadAfterVersion cursor limit => exact absurd ⟨cursor, limit, rfl⟩ hload
          | append fuel expected events => exact hc.resolve_left (by decide)
          | maybeRotate => exact hc.resolve_left (by decide)
          | currentVersion => exact hc.resolve_left (by decide)
        have hsame : st'.inner = st.inner := by
          rw [← hinner, ← hinner', hcurrent.1, hcurrent.2, ha.settled_eq, ha.rotationPolicy]
        have heval : m.eval t.rotationPolicy storeEnv (resume (t.stores st'.directory) st'.inner) =
            m.eval s.rotationPolicy storeEnv (resume (s.stores st.directory) st.inner) := by
          rw [ha.rotationPolicy, hsame, hresume]
        exact ⟨by rw [heval], ha.called hst hdirectory hst' hdirectory' (by rw [heval]),
          fun hfalse => by cases hfalse⟩

/-- An operation of the partition. -/
theorem Related.step [SerdeJson] (h : Related p agreed s t) (hop : op.partition = p)
    (hc : Harmless agreed s t op) :
    (op.step t).1 = (op.step s).1 ∧
      Related p (agreed && Agrees s t op) (op.step s).2 (op.step t).2 := by
  subst hop
  cases op with
  | openPartition p x env storeEnv =>
    obtain ⟨hanswer, hrelated⟩ := h.openPartition hc
    exact ⟨congrArg some hanswer, hrelated⟩
  | call p x m storeEnv =>
    obtain ⟨hanswer, hrelated⟩ := h.call hc
    exact ⟨hanswer, hrelated.and_left⟩

end Related

/-- What the operations on the partition answer. -/
def answersOf (p : PartitionDescriptor) (answers : List (Op × Option (Except Abort StreamAns))) :
    List (Option (Except Abort StreamAns)) :=
  (answers.filter fun a => a.1.partition = p).map Prod.snd

/-- Along the runs the partition's operations answer the same. -/
theorem Related.run [SerdeJson] {agreed : Bool} {s t : EventNamespaces} {p : PartitionDescriptor}
    {ops : List Op}
    (h : Related p agreed s t) (hc : Along p agreed s t ops) :
    answersOf p (run ops s) =
      answersOf p (run (ops.filter fun op => op.partition = p) t) := by
  induction ops generalizing agreed s t with
  | nil => rfl
  | cons op ops ih =>
    unfold Along at hc
    unfold answersOf at ih ⊢
    by_cases hop : op.partition = p
    · rw [if_pos hop] at hc
      obtain ⟨hanswer, hrelated⟩ := h.step hop hc.1
      rw [List.filter_cons_of_pos (by simpa using hop)]
      unfold Partitions.run
      rw [List.filter_cons_of_pos (by simpa using hop), List.filter_cons_of_pos (by simpa using hop),
        List.map_cons, List.map_cons, ih hrelated hc.2, hanswer]
    · rw [if_neg hop] at hc
      rw [List.filter_cons_of_neg (by simpa using hop)]
      conv_lhs => unfold Partitions.run
      rw [List.filter_cons_of_neg (by simpa using hop)]
      exact ih (h.untouched hop) hc

/-- Two runs that start alike. -/
theorem related_start (p : PartitionDescriptor) (root : Path) (rotationPolicy : RotationPolicy)
    (maxOpenStores : Nat) (idleStoreTtl : Duration) (stores : Path → World Unit) :
    Related p true (.start root rotationPolicy maxOpenStores idleStoreTtl stores)
      (.start root rotationPolicy maxOpenStores idleStoreTtl stores) := by
  have howned := EventNamespaces.owned_start root rotationPolicy maxOpenStores idleStoreTtl stores
  refine ⟨⟨rfl, rfl, rfl, fun _ => rfl, howned, howned⟩, fun _ => ⟨id, fun _ => rfl, ?_, ?_, ?_⟩⟩
  · exact fun c hc => by cases hc
  · exact fun n st hst _ => hst
  · exact fun m n _ _ heq => heq

/-- **Partitions are isolated.** Different partitions have different keys and directories, two components
below the root and apart. In every run of operations on any number of partitions that meets the condition,
those of one partition answer as in the run of these alone. -/
theorem partitions_isolated [SerdeJson] (root : Path) (rotationPolicy : RotationPolicy) (maxOpenStores : Nat)
    (idleStoreTtl : Duration) (stores : Path → World Unit) (p : PartitionDescriptor) (ops : List Op) :
    (∀ q, p ≠ q → Separate root p q) ∧
    (Along p true (.start root rotationPolicy maxOpenStores idleStoreTtl stores)
        (.start root rotationPolicy maxOpenStores idleStoreTtl stores) ops →
      answersOf p (run ops (.start root rotationPolicy maxOpenStores idleStoreTtl stores)) =
        answersOf p (run (ops.filter fun op => op.partition = p)
          (.start root rotationPolicy maxOpenStores idleStoreTtl stores))) :=
  ⟨fun _ hne => separate root hne,
    fun hc => (related_start p root rotationPolicy maxOpenStores idleStoreTtl stores).run hc⟩

/-! ## One store in the cache -/

theorem Along.own [SerdeJson] {p : PartitionDescriptor} {agreed : Bool} {s t : EventNamespaces} {op : Op}
    {ops : List Op}
    (hop : op.partition = p) (hc : Harmless agreed s t op)
    (hrest : Along p (agreed && Agrees s t op) (op.step s).2 (op.step t).2 ops) :
    Along p agreed s t (op :: ops) := by
  unfold Along
  rw [if_pos hop]
  exact ⟨hc, hrest⟩

theorem Along.other [SerdeJson] {p : PartitionDescriptor} {agreed : Bool} {s t : EventNamespaces} {op : Op}
    {ops : List Op} (hop : op.partition ≠ p) (hrest : Along p agreed (op.step s).2 t ops) :
    Along p agreed s t (op :: ops) := by
  unfold Along
  rw [if_neg hop]
  exact hrest

attribute [local instance] SerdeJson.limited

/-- Namespaces of `hourly` that keep one store in the cache. -/
def oneStore : EventNamespaces :=
  .start ⟨true, []⟩ hourly 1 PartitionCache.new.idleStoreTtl fun _ => .empty

/-- An open at the instant `i`. -/
def openAt (p : PartitionDescriptor) (x : Nat) (i : Pool.Instant) : Op :=
  .openPartition p x ⟨true, i, i, i, inserted⟩ fun _ => {}

/-- `users` is opened again after `orders` has taken its place, and the new stream is used. -/
def reopened : List Op :=
  [openAt users 0 1, openAt orders 0 2, .call users 0 (.append 1 .any [noteEvent]) fun _ => {},
    .call orders 0 (.append 1 .any [noteEvent]) fun _ => {}, openAt users 1 3,
    .call users 1 .currentVersion fun _ => {}]

theorem partitions_isolated_reopened : answersOf users (run reopened oneStore) =
    answersOf users (run (reopened.filter fun op => op.partition = users) oneStore) := by
  refine (partitions_isolated ⟨true, []⟩ hourly 1 PartitionCache.new.idleStoreTtl (fun _ => .empty) users
    reopened).2 ?_
  refine Along.own rfl ?_ (Along.other (by decide) (Along.own rfl ?_ (Along.other (by decide)
    (Along.own rfl ?_ (Along.own rfl ?_ trivial)))))
  · exact Or.inl (by decide +kernel)
  · exact Or.inl (by decide +kernel)
  · exact Or.inr ⟨by decide +kernel, fun _ => ⟨rfl, fun _ => rfl⟩⟩
  · exact Or.inr (by decide +kernel)

/-- The version that an answer reports. -/
def versionOf : Option (Except Abort StreamAns) → Option Int
  | some (.ok (.version v)) => some v.get
  | _ => none

/-- `users` is opened again, and the new stream is used an hour later: it rotates. -/
def rotatedBeside : List Op :=
  [openAt users 0 1, openAt orders 0 2, openAt users 1 3,
    .call users 1 (.append 2 .any [noteEvent]) fun _ => atOne, .call users 0 .currentVersion fun _ => {}]

/-- The first stream still answers for the old file. -/
theorem not_partitions_isolated_rotatedBeside :
    ¬∀ (root : Path) (rotationPolicy : RotationPolicy) (maxOpenStores : Nat) (idleStoreTtl : Duration)
      (stores : Path → World Unit) (p : PartitionDescriptor) (ops : List Op),
      answersOf p (run ops (.start root rotationPolicy maxOpenStores idleStoreTtl stores)) =
        answersOf p (run (ops.filter fun op => op.partition = p)
          (.start root rotationPolicy maxOpenStores idleStoreTtl stores)) := by
  intro h
  have hanswers := congrArg (List.map versionOf) (h ⟨true, []⟩ hourly 1 PartitionCache.new.idleStoreTtl
    (fun _ => .empty) users rotatedBeside)
  have hdiffer : (answersOf users (run rotatedBeside oneStore)).map versionOf ≠
      (answersOf users (run (rotatedBeside.filter fun op => op.partition = users) oneStore)).map
        versionOf := by decide +kernel
  exact hdiffer hanswers

end Events.Partitions
