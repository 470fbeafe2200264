import Events.Effects
import Events.Partitions
import Events.Lib.Sequential

/-!
# Streams of many partitions

The system around the cache: the stores below the root, the streams that are open on them, and the
operations on any number of partitions. A stream that the cache has dropped stays with its callers, and the
store may be opened again next to it.

* **`separate`** — the keys and directories of two partitions.
* **`EventNamespaces`**, **`Op`** — the system; `run` — what the operations of a sequence answer.
* **`Owned`** — whoever holds a stream of a partition holds one of its directory.
* **`Untouched`** — what the operations of the other partitions leave.
-/

namespace Events.Partitions

open Proc Program
open Events.Pool (Path)

/-! ## Labels -/

/-- What `validate_safe_label` accepts. -/
structure SafeLabel (value : Text) : Prop where
  nonempty : value ≠ []
  short : value.len ≤ 128
  chars : ∀ c ∈ value, c.isLower = true ∨ c.isDigit = true ∨ c = '-'

/-- **What is accepted as a label**: one to 128 bytes, of lower case letters, digits and dashes. The length
is that of the UTF-8 text, and the characters are all ASCII. -/
theorem validateSafeLabel_iff {field : String} {value : Text} :
    validateSafeLabel field value = .ok () ↔ SafeLabel value := by
  unfold validateSafeLabel
  constructor
  · intro h
    split at h
    · cases h
    · rename_i hlen
      split at h
      · rename_i hchars
        rw [not_or, not_lt] at hlen
        refine ⟨fun hnil => hlen.1 (by rw [hnil]; rfl), hlen.2, fun c hc => ?_⟩
        simpa [or_assoc] using List.all_eq_true.1 hchars c hc
      · cases h
  · rintro ⟨hnonempty, hshort, hchars⟩
    rw [if_neg, if_pos]
    · refine List.all_eq_true.2 fun c hc => ?_
      simpa [or_assoc] using hchars c hc
    · rw [not_or, not_lt]
      exact ⟨fun hnil => hnonempty (List.isEmpty_iff.1 hnil), hshort⟩

namespace SafeLabel

variable {value : Text}

/-- No separator and no dot. -/
theorem notMem (h : SafeLabel value) {c : Char} (hc : c.isLower = false ∧ c.isDigit = false ∧ c ≠ '-') :
    c ∉ value := by
  intro hmem
  rcases h.chars c hmem with hlower | hdigit | hdash
  · rw [hc.1] at hlower
    cases hlower
  · rw [hc.2.1] at hdigit
    cases hdigit
  · exact hc.2.2 hdash

/-- So a label is no path of several components. -/
theorem slash_notMem (h : SafeLabel value) : '/' ∉ value := h.notMem (by decide)

/-- And it is neither `.` nor `..`. -/
theorem dot_notMem (h : SafeLabel value) : '.' ∉ value := h.notMem (by decide)

/-- A safe label is one component. -/
theorem pathOf_eq (h : SafeLabel value) : pathOf value = ⟨false, [value]⟩ := by
  have hhead : value.head? ≠ some '/' := fun hsome => h.slash_notMem (List.mem_of_head? hsome)
  have hsplit : value.splitOn '/' = [value] := by
    apply List.splitOnP_eq_singleton
    intro c hc
    have hne : c ≠ '/' := fun heq => h.slash_notMem (heq ▸ hc)
    simpa using hne
  have hdot : value ≠ ['.'] := fun heq => h.dot_notMem (heq ▸ List.mem_cons_self)
  unfold pathOf
  rw [hsplit]
  simp [hhead, h.nonempty, hdot]

end SafeLabel

section Labels

variable {root : Path} {p q : PartitionDescriptor}

/-- A descriptor carries the proofs that its labels were accepted. -/
theorem PartitionDescriptor.labels (p : PartitionDescriptor) :
    SafeLabel p.namespaceName ∧ SafeLabel p.partitionKey :=
  ⟨validateSafeLabel_iff.1 p.safeNamespace, validateSafeLabel_iff.1 p.safeKey⟩

/-- Two descriptors with the same labels are the same. -/
theorem PartitionDescriptor.ext_labels (hn : p.namespaceName = q.namespaceName)
    (hk : p.partitionKey = q.partitionKey) : p = q := by
  cases p
  cases q
  simp only at hn hk
  subst hn hk
  rfl

/-- The directory of a partition is two components below the root. -/
theorem path_eq (root : Path) (p : PartitionDescriptor) :
    p.path root = ⟨root.isAbsolute, root.components ++ [p.namespaceName, p.partitionKey]⟩ := by
  obtain ⟨hn, hk⟩ := p.labels
  unfold PartitionDescriptor.path partitionPath push
  rw [hn.pathOf_eq, hk.pathOf_eq]
  show (⟨root.isAbsolute, (root.components ++ [_]) ++ [_]⟩ : Path) = _
  rw [List.append_assoc]
  rfl

/-- **Keys**: the separator is in no label, so no two partitions have one key in the cache. -/
theorem cacheKey_injective (h : p.cacheKey = q.cacheKey) : p = q := by
  unfold PartitionDescriptor.cacheKey at h
  rw [List.append_cons_inj_of_notMem p.labels.1.slash_notMem p.labels.2.slash_notMem] at h
  exact PartitionDescriptor.ext_labels h.1 h.2.2

/-- **Directories**: no two partitions have one directory below a root. -/
theorem path_injective (h : p.path root = q.path root) : p = q := by
  rw [path_eq, path_eq] at h
  have hcomponents := List.append_cancel_left (congrArg Path.components h)
  simp only [List.cons.injEq, and_true] at hcomponents
  exact PartitionDescriptor.ext_labels hcomponents.1 hcomponents.2

/-- A component that names neither the directory itself nor the one above, and no more than one. -/
def Child (component : Text) : Prop :=
  component ≠ [] ∧ component ≠ ['.'] ∧ component ≠ ['.', '.'] ∧ '/' ∉ component

/-- A label stays below the directory it is put in. -/
theorem SafeLabel.child {value : Text} (h : SafeLabel value) : Child value :=
  ⟨h.nonempty, fun heq => h.dot_notMem (heq ▸ List.mem_cons_self),
    fun heq => h.dot_notMem (heq ▸ List.mem_cons_self), h.slash_notMem⟩

/-- The keys and directories of two partitions. -/
structure Separate (root : Path) (p q : PartitionDescriptor) : Prop where
  keys : p.cacheKey ≠ q.cacheKey
  directories : p.path root ≠ q.path root
  below : ∃ first second, p.path root = ⟨root.isAbsolute, root.components ++ [first, second]⟩ ∧
    Child first ∧ Child second
  /-- Nothing is below both directories. -/
  apart : ∀ rest rest', (p.path root).components ++ rest ≠ (q.path root).components ++ rest'

/-- **Different partitions are separate.** -/
theorem separate (root : Path) (hne : p ≠ q) : Separate root p q where
  keys h := hne (cacheKey_injective h)
  directories h := hne (path_injective h)
  below := ⟨_, _, path_eq root p, p.labels.1.child, p.labels.2.child⟩
  apart rest rest' h := by
    rw [path_eq, path_eq, List.append_assoc, List.append_assoc] at h
    have hcomponents := List.append_cancel_left h
    simp only [List.cons_append, List.nil_append, List.cons.injEq] at hcomponents
    exact hne (PartitionDescriptor.ext_labels hcomponents.1 hcomponents.2.1)

end Labels

/-! ## The system -/

/-- An open `EventStream`: the directory of its store, and what it keeps in memory. -/
structure Stream where
  directory : Path
  inner : Option (RotationPolicy × ActivePartition)

/-- `EventNamespaces`, with the stores below the root and the streams that were opened. -/
structure EventNamespaces where
  root : Path
  rotationPolicy : RotationPolicy
  cache : PartitionCache
  /-- The store in each directory. What its streams keep in memory is in `streams`. -/
  stores : Path → World Unit
  streams : List Stream
  /-- The streams that are held, under a name for each. -/
  held : PartitionDescriptor → Nat → Option Nat

/-- The methods of a stream. -/
inductive Method where
  | append (fuel : Nat) (expected : ExpectedVersion) (events : List NewEvent)
  | maybeRotate
  | loadAfterVersion (cursor : EventStreamVersion) (limit : Nat)
  | currentVersion

/-- The method on a stream with the policy `rotation`. -/
def Method.on (rotation : RotationPolicy) : Method → StreamCall
  | append fuel expected events => .append rotation fuel expected events
  | maybeRotate => .maybeRotate rotation
  | loadAfterVersion cursor limit => .loadAfterVersion rotation cursor limit
  | currentVersion => .currentVersion rotation

/-- The store `w` as a stream sees it that keeps `inner`. -/
def resume (w : World Unit) (inner : Option (RotationPolicy × ActivePartition)) : World Unit :=
  { w with handles := fun _ => inner }

/-- One stream, whose calls come one after the other. -/
abbrev oneStream [SerdeJson] : Machine (locked LockNote StoreI) := solo (eventStreams Unit) fun _ _
    (γ : Unit) => γ

/-- What a method answers and does on the store `w`. -/
def Method.eval [SerdeJson] (m : Method) (rotation : RotationPolicy) (storeEnv : Nat → StoreEnv)
    (w : World Unit) :
    Except Abort StreamAns × World Unit :=
  let r := Program.eval oneStream storeEnv 0 (m.on rotation).code (w, ())
  (r.1, r.2.1)

/-- Hold the stream `n` under the name `x`. -/
def hold (p : PartitionDescriptor) (x n : Nat) (held : PartitionDescriptor → Nat → Option Nat) :
    PartitionDescriptor → Nat → Option Nat :=
  fun q y => if q = p ∧ y = x then some n else held q y

namespace EventNamespaces

/-- `EventNamespaces::open` over what is below the root, with the limits of the cache. -/
def start (root : Path) (rotationPolicy : RotationPolicy) (maxOpenStores : Nat) (idleStoreTtl : Duration)
    (stores : Path → World Unit) : EventNamespaces where
  root := root
  rotationPolicy := rotationPolicy
  cache := ⟨maxOpenStores, idleStoreTtl, []⟩
  stores := stores
  streams := []
  held := fun _ _ => none

/-- `EventStream::open_partitioned` on the directory of the partition. -/
def openStore (p : PartitionDescriptor) (storeEnv : Nat → StoreEnv) (s : EventNamespaces) :
    Except Abort Unit × World Unit :=
  eval (storeMachine ()) storeEnv 0 (openPartitioned s.rotationPolicy)
    (s.stores (p.path s.root)).restart

/-- What `open_partitioned` leaves, where the open comes to it. -/
def withOpened (p : PartitionDescriptor) (opened : Except Abort Unit × World Unit)
    (s : EventNamespaces) : EventNamespaces :=
  { s with
    stores := Function.update s.stores (p.path s.root) opened.2.restart
    streams :=
      if opened.1.isOk then s.streams ++ [⟨p.path s.root, opened.2.handles ()⟩] else s.streams }

/-- `Partition::open`, the stream being held under the name `x`. -/
def openPartition (p : PartitionDescriptor) (x : Nat) (env : OpenEnv) (storeEnv : Nat → StoreEnv)
    (s : EventNamespaces) : Except Abort StreamAns × EventNamespaces :=
  let opened := s.openStore p storeEnv
  let result := Partitions.openPartition s.root p env (opened.1.map fun _ => s.streams.length) s.cache
  let s' := if env.present ∧ Misses p env s.cache then s.withOpened p opened else s
  match result.1 with
  | .ok n => (.ok .opened, { s' with cache := result.2, held := hold p x n s.held })
  | .error e => (.error e, { s' with cache := result.2 })

/-- The stream that is held under the name `x`, with its number. -/
def streamAt (p : PartitionDescriptor) (x : Nat) (s : EventNamespaces) : Option (Nat × Stream) :=
  (s.held p x).bind fun n => s.streams[n]?.map fun st => (n, st)

/-- A method of the stream that is held under the name `x`. -/
def call [SerdeJson] (p : PartitionDescriptor) (x : Nat) (m : Method) (storeEnv : Nat → StoreEnv)
    (s : EventNamespaces) : Option (Except Abort StreamAns) × EventNamespaces :=
  match s.streamAt p x with
  | none => (none, s)
  | some (n, st) =>
    let r := m.eval s.rotationPolicy storeEnv (resume (s.stores st.directory) st.inner)
    (some r.1, { s with
      stores := Function.update s.stores st.directory r.2.restart
      streams := s.streams.set n { st with inner := r.2.handles () } })

end EventNamespaces

/-- An operation on a partition, with the choices of the environment that are its own. -/
inductive Op where
  | openPartition (p : PartitionDescriptor) (x : Nat) (env : OpenEnv) (storeEnv : Nat → StoreEnv)
  | call (p : PartitionDescriptor) (x : Nat) (m : Method) (storeEnv : Nat → StoreEnv)

namespace Op

def partition : Op → PartitionDescriptor
  | openPartition p _ _ _ => p
  | call p _ _ _ => p

/-- What the operation answers and does. -/
def step [SerdeJson] : Op → EventNamespaces → Option (Except Abort StreamAns) × EventNamespaces
  | openPartition p x env storeEnv, s =>
    let r := s.openPartition p x env storeEnv
    (some r.1, r.2)
  | call p x m storeEnv, s => s.call p x m storeEnv

end Op

/-- The operations of a sequence with their answers. -/
def run [SerdeJson] : List Op → EventNamespaces → List (Op × Option (Except Abort StreamAns))
  | [], _ => []
  | op :: ops, s => (op, (op.step s).1) :: run ops (op.step s).2

/-! ## How an open ends -/

namespace EventNamespaces

variable {s s' : EventNamespaces} {p q : PartitionDescriptor} {x n : Nat} {env : OpenEnv}
  {storeEnv : Nat → StoreEnv} {c : CachedStore} {st : Stream}

/-- The system after an open that has found the stream `c`. -/
def found (p : PartitionDescriptor) (x : Nat) (env : OpenEnv) (c : CachedStore) (s : EventNamespaces) :
    EventNamespaces :=
  { s with
    cache := (s.cache.evictIdle env.first).touch p.cacheKey env.second
    held := hold p x c.stream s.held }

/-- The system after an open that has opened the store. -/
def added (p : PartitionDescriptor) (x : Nat) (env : OpenEnv) (storeEnv : Nat → StoreEnv)
    (s : EventNamespaces) : EventNamespaces :=
  { s.withOpened p (s.openStore p storeEnv) with
    cache := afterMiss p env s.streams.length s.cache
    held := hold p x s.streams.length s.held }

/-- The system after an open that has failed to open the store. -/
def failed (p : PartitionDescriptor) (env : OpenEnv) (storeEnv : Nat → StoreEnv) (s : EventNamespaces) :
    EventNamespaces :=
  { s.withOpened p (s.openStore p storeEnv) with cache := s.cache.evictIdle env.first }

/-- Without the directory nothing is opened, and the cache is not asked. -/
theorem openPartition_absent (hpresent : env.present = false) : s.openPartition p x env storeEnv =
    (.error (.es (.invalidPath s!"partition does not exist: {String.ofList (p.path s.root).toText}")),
      s) := by
  unfold openPartition Partitions.openPartition
  rw [hpresent]
  rfl

/-- A stream of the cache is handed out again; its entry has now been used. -/
theorem openPartition_found (hpresent : env.present = true)
    (hfind : (s.cache.evictIdle env.first).find p.cacheKey = some c) :
    s.openPartition p x env storeEnv = (.ok .opened, s.found p x env c) := by
  unfold openPartition Partitions.openPartition openCached Misses
  simp [hpresent, hfind, found]

/-- A store is opened where the cache has none, and comes into the cache for what it had to give up. -/
theorem openPartition_added (hpresent : env.present = true) (hmiss : Misses p env s.cache)
    (hok : (s.openStore p storeEnv).1 = .ok ()) :
    s.openPartition p x env storeEnv = (.ok .opened, s.added p x env storeEnv) := by
  have hfind : (s.cache.evictIdle env.first).find p.cacheKey = none := hmiss
  unfold openPartition Partitions.openPartition openCached
  simp [hpresent, hfind, hmiss, hok, Except.map, added, afterMiss]

/-- Where the store does not open, the cache has lost its idle entries all the same. -/
theorem openPartition_failed {e : Abort} (hpresent : env.present = true) (hmiss : Misses p env s.cache)
    (herr : (s.openStore p storeEnv).1 = .error e) :
    s.openPartition p x env storeEnv = (.error e, s.failed p env storeEnv) := by
  have hfind : (s.cache.evictIdle env.first).find p.cacheKey = none := hmiss
  unfold openPartition Partitions.openPartition openCached
  simp [hpresent, hfind, hmiss, herr, Except.map, failed]

/-- The ends of an open. -/
inductive OpenEnds (p : PartitionDescriptor) (x : Nat) (env : OpenEnv) (storeEnv : Nat → StoreEnv)
    (s : EventNamespaces) : Except Abort StreamAns × EventNamespaces → Prop where
  | absent (e : Abort) : OpenEnds p x env storeEnv s (.error e, s)
  | found (c : CachedStore) (hfind : (s.cache.evictIdle env.first).find p.cacheKey = some c) :
      OpenEnds p x env storeEnv s (.ok .opened, s.found p x env c)
  | added (hmiss : Misses p env s.cache) (hok : (s.openStore p storeEnv).1 = .ok ()) :
      OpenEnds p x env storeEnv s (.ok .opened, s.added p x env storeEnv)
  | failed (e : Abort) (herr : (s.openStore p storeEnv).1 = .error e) :
      OpenEnds p x env storeEnv s (.error e, s.failed p env storeEnv)

/-- **An open ends** in one of these ways. What is proved of opens goes by cases on them. -/
theorem openEnds (p : PartitionDescriptor) (x : Nat) (env : OpenEnv) (storeEnv : Nat → StoreEnv)
    (s : EventNamespaces) : OpenEnds p x env storeEnv s (s.openPartition p x env storeEnv) := by
  cases hpresent : env.present with
  | false =>
    rw [openPartition_absent hpresent]
    exact .absent _
  | true =>
    cases hfind : (s.cache.evictIdle env.first).find p.cacheKey with
    | some c =>
      rw [openPartition_found hpresent hfind]
      exact .found c hfind
    | none =>
      cases hopened : (s.openStore p storeEnv).1 with
      | ok u =>
        rw [openPartition_added hpresent hfind hopened]
        exact .added hfind hopened
      | error e =>
        rw [openPartition_failed hpresent hfind hopened]
        exact .failed e hopened

end EventNamespaces

/-! ## Whose stream it is -/

/-- The entries of `cache'` are those of `cache`, but for the time of their last access. -/
def FromCache (cache cache' : PartitionCache) : Prop :=
  ∀ c ∈ cache'.stores, ∃ c₀ ∈ cache.stores, c₀.key = c.key ∧ c₀.stream = c.stream

/-- Nothing has been taken out. -/
theorem FromCache.refl (cache : PartitionCache) : FromCache cache cache := fun c hc => ⟨c, hc, rfl, rfl⟩

/-- Evicting idle stores only takes entries out. -/
theorem fromCache_evictIdle (cache : PartitionCache) (now : Pool.Instant) :
    FromCache cache (cache.evictIdle now) :=
  fun c hc => ⟨c, (mem_evictIdle.1 hc).1, rfl, rfl⟩

/-- Using an entry changes the time of its last access only. -/
theorem fromCache_touch (cache : PartitionCache) (now now' : Pool.Instant) (key : Text) :
    FromCache cache ((cache.evictIdle now).touch key now') := by
  intro c hc
  obtain ⟨c₀, hc₀, rfl⟩ := List.mem_map.1 hc
  refine ⟨c₀, (mem_evictIdle.1 hc₀).1, ?_, ?_⟩
  · show c₀.key = (if c₀.key = key then _ else _ : CachedStore).key
    split <;> rfl
  · show c₀.stream = (if c₀.key = key then _ else _ : CachedStore).stream
    split <;> rfl

/-- A new stream is the only one of its key. -/
theorem mem_afterMiss {p : PartitionDescriptor} {env : OpenEnv} {n : Nat} {cache : PartitionCache}
    {c : CachedStore} (hc : c ∈ (afterMiss p env n cache).stores) :
    c.key = p.cacheKey ∧ c.stream = n ∨ c.key ≠ p.cacheKey ∧ c ∈ cache.stores := by
  rcases List.mem_append.1 hc with hold | hnew
  · obtain ⟨hleft, hkey⟩ := List.mem_filter.1 hold
    have hmem := (evictLoop_sublist _ _ _ _).subset hleft
    exact .inr ⟨by simpa using hkey, (mem_evictIdle.1 (mem_evictIdle.1 hmem).1).1⟩
  · obtain rfl := List.mem_singleton.1 hnew
    exact .inl ⟨rfl, rfl⟩

namespace EventNamespaces

variable {s s' : EventNamespaces} {p q : PartitionDescriptor} {x n : Nat} {env : OpenEnv}
  {storeEnv : Nat → StoreEnv} {c : CachedStore} {st : Stream}

/-- The directory of the stream `n`. -/
def directoryOf (n : Nat) (s : EventNamespaces) : Option Path := s.streams[n]?.map Stream.directory

/-- Whoever holds a stream of a partition, a caller or the cache, holds one of its directory. -/
structure Owned (s : EventNamespaces) : Prop where
  held : ∀ p x n, s.held p x = some n → s.directoryOf n = some (p.path s.root)
  cached : ∀ c ∈ s.cache.stores, ∀ p : PartitionDescriptor, c.key = p.cacheKey →
    s.directoryOf c.stream = some (p.path s.root)

/-- At the start nobody holds a stream. -/
theorem owned_start (root : Path) (rotationPolicy : RotationPolicy) (maxOpenStores : Nat)
    (idleStoreTtl : Duration) (stores : Path → World Unit) :
    (start root rotationPolicy maxOpenStores idleStoreTtl stores).Owned :=
  ⟨fun _ _ _ h => (by cases h), fun _ h => (by cases h)⟩

/-- The slot that is set has the stream. -/
theorem hold_self (p : PartitionDescriptor) (x n : Nat) (held : PartitionDescriptor → Nat → Option Nat) :
    hold p x n held p x = some n := if_pos ⟨rfl, rfl⟩

/-- The slots of the other partitions are as before. -/
theorem hold_ne (x n : Nat) (held : PartitionDescriptor → Nat → Option Nat) (hne : q ≠ p) :
    hold p x n held q = held q := funext fun _ => if_neg fun h => hne h.1

/-- Streams stay in their directories. -/
theorem Owned.of_grown (h : s.Owned) (hroot : s'.root = s.root)
    (hgrown : ∀ n directory, s.directoryOf n = some directory → s'.directoryOf n = some directory)
    (hheld : ∀ p x n, s'.held p x = some n →
      s.held p x = some n ∨ s'.directoryOf n = some (p.path s.root))
    (hcached : ∀ c ∈ s'.cache.stores, (∃ c₀ ∈ s.cache.stores, c₀.key = c.key ∧ c₀.stream = c.stream) ∨
      ∃ p : PartitionDescriptor, c.key = p.cacheKey ∧ s'.directoryOf c.stream = some (p.path s.root)) :
    s'.Owned where
  held p x n hn := by
    rw [hroot]
    rcases hheld p x n hn with hold | hnew
    · exact hgrown n _ (h.held p x n hold)
    · exact hnew
  cached c hc p hp := by
    rw [hroot]
    rcases hcached c hc with ⟨c₀, hc₀, hkey, hstream⟩ | ⟨q, hq, hnew⟩
    · rw [← hstream]
      exact hgrown _ _ (h.cached c₀ hc₀ p (hkey.trans hp))
    · rw [cacheKey_injective (hp.symm.trans hq)]
      exact hnew

/-- An open adds at most one stream behind the others, so the streams that are there keep their numbers. -/
theorem directoryOf_withOpened (p : PartitionDescriptor) (opened : Except Abort Unit × World Unit)
    {directory : Path} (h : s.directoryOf n = some directory) :
    (s.withOpened p opened).directoryOf n = some directory := by
  unfold directoryOf withOpened at *
  obtain ⟨st, hst, rfl⟩ := Option.map_eq_some_iff.1 h
  have hlt := (List.getElem?_eq_some_iff.1 hst).1
  show Option.map Stream.directory (if _ then _ else _ : List Stream)[n]? = _
  split
  · rw [List.getElem?_append_left hlt, hst]
    rfl
  · rw [hst]
    rfl

/-- The new stream is the last one. -/
theorem getElem?_added (hok : (s.openStore p storeEnv).1 = .ok ()) :
    (s.added p x env storeEnv).streams[s.streams.length]? =
      some ⟨p.path s.root, (s.openStore p storeEnv).2.handles ()⟩ := by
  unfold added withOpened
  simp [hok, Except.isOk, Except.toBool]

/-- **Opening** keeps what is held with its owner: what the cache gives out is of the partition that was asked
for, since the key says which it is, and a new stream is in its directory. -/
theorem Owned.openPartition (h : s.Owned) (p : PartitionDescriptor) (x : Nat) (env : OpenEnv)
    (storeEnv : Nat → StoreEnv) : (s.openPartition p x env storeEnv).2.Owned := by
  have hends := openEnds p x env storeEnv s
  generalize s.openPartition p x env storeEnv = r at hends
  cases hends with
  | absent e => exact h
  | found c hfind =>
    obtain ⟨hmem, hkey⟩ := find_eq_some hfind
    show (s.found p x env c).Owned
    refine h.of_grown rfl (fun n directory hn => hn) ?_ fun k hk => .inl ?_
    · -- the handle just given out is of this partition, the others are as before
      intro q y n hn
      by_cases hq : q = p ∧ y = x
      · obtain ⟨rfl, rfl⟩ := hq
        obtain rfl : c.stream = n := Option.some.inj ((hold_self q y _ _).symm.trans hn)
        exact .inr (h.cached c (mem_evictIdle.1 hmem).1 q hkey)
      · exact .inl ((if_neg hq).symm.trans hn)
    · exact fromCache_touch _ _ _ _ k hk
  | added hmiss hok =>
    have hnew : (s.added p x env storeEnv).directoryOf s.streams.length = some (p.path s.root) := by
      unfold directoryOf
      rw [getElem?_added hok]
      rfl
    show (s.added p x env storeEnv).Owned
    refine h.of_grown rfl ?_ ?_ fun k hk => ?_
    · exact fun n directory hn => directoryOf_withOpened p _ hn
    · intro q y n hn
      by_cases hq : q = p ∧ y = x
      · obtain ⟨rfl, rfl⟩ := hq
        obtain rfl : s.streams.length = n := Option.some.inj ((hold_self q y _ _).symm.trans hn)
        exact .inr hnew
      · exact .inl ((if_neg hq).symm.trans hn)
    · rcases mem_afterMiss hk with ⟨hkey, hstream⟩ | ⟨-, hmem⟩
      · exact .inr ⟨p, hkey, by rw [hstream]; exact hnew⟩
      · exact .inl ⟨k, hmem, rfl, rfl⟩
  | failed e herr =>
    show (s.failed p env storeEnv).Owned
    refine h.of_grown rfl ?_ (fun q y n hn => .inl hn) fun k hk => .inl ?_
    · exact fun n directory hn => directoryOf_withOpened p _ hn
    · exact fromCache_evictIdle _ _ k hk

/-! ## Calls -/

/-- The system after the method `m` of the stream `n`. -/
def called [SerdeJson] (m : Method) (storeEnv : Nat → StoreEnv) (n : Nat) (st : Stream)
    (s : EventNamespaces) :
    EventNamespaces :=
  let r := m.eval s.rotationPolicy storeEnv (resume (s.stores st.directory) st.inner)
  { s with
    stores := Function.update s.stores st.directory r.2.restart
    streams := s.streams.set n { st with inner := r.2.handles () } }

/-- A caller without a stream calls nothing. -/
theorem call_none [SerdeJson] {m : Method} (h : s.held p x = none) : s.call p x m storeEnv = (none, s) := by
  unfold call streamAt
  rw [h]
  rfl

/-- A method is one evaluation on the store of the stream's directory, with the handle of that stream. -/
theorem call_some [SerdeJson] {m : Method} (hn : s.held p x = some n) (hst : s.streams[n]? = some st) :
    s.call p x m storeEnv =
      (some (m.eval s.rotationPolicy storeEnv (resume (s.stores st.directory) st.inner)).1,
        s.called m storeEnv n st) := by
  unfold call streamAt
  rw [hn, Option.bind_some, hst]
  rfl

/-- What a caller holds for a partition is a stream of its directory. -/
theorem Owned.stream (h : s.Owned) (hn : s.held p x = some n) :
    ∃ st, s.streams[n]? = some st ∧ st.directory = p.path s.root :=
  Option.map_eq_some_iff.1 (h.held p x n hn)

/-- A method changes the handle of its own stream only. -/
theorem getElem?_called [SerdeJson] {m : Method} (hst : s.streams[n]? = some st) (k : Nat) :
    (s.called m storeEnv n st).streams[k]? =
      if k = n then some { st with
        inner := (m.eval s.rotationPolicy storeEnv (resume (s.stores st.directory) st.inner)).2.handles () }
      else s.streams[k]? := by
  have hlt := (List.getElem?_eq_some_iff.1 hst).1
  show (s.streams.set n _)[k]? = _
  by_cases hk : k = n
  · subst hk
    rw [if_pos rfl, List.getElem?_set_self hlt]
  · rw [if_neg hk, List.getElem?_set_ne (Ne.symm hk)]

/-- A method leaves the directories alone. -/
theorem Owned.called [SerdeJson] (h : s.Owned) (m : Method) (storeEnv : Nat → StoreEnv)
    (hst : s.streams[n]? = some st) : (s.called m storeEnv n st).Owned := by
  refine h.of_grown rfl (fun k directory hk => ?_)
    (fun q y k hk => .inl hk) fun c hc => .inl ⟨c, hc, rfl, rfl⟩
  unfold directoryOf at hk ⊢
  rw [getElem?_called hst]
  by_cases hkn : k = n
  · subst hkn
    rw [hst] at hk
    rw [if_pos rfl]
    exact hk
  · rw [if_neg hkn]
    exact hk

end EventNamespaces

/-- **Each operation** keeps what is held with its owner. -/
theorem EventNamespaces.Owned.step [SerdeJson] {s : EventNamespaces} (h : s.Owned) (op : Op) :
    (op.step s).2.Owned := by
  cases op with
  | openPartition p x env storeEnv => exact h.openPartition p x env storeEnv
  | call p x m storeEnv =>
    show (s.call p x m storeEnv).2.Owned
    cases hn : s.held p x with
    | none =>
      rw [EventNamespaces.call_none hn]
      exact h
    | some n =>
      obtain ⟨st, hst, -⟩ := h.stream hn
      rw [EventNamespaces.call_some hn hst]
      exact h.called m storeEnv hst

/-! ## The operations of other partitions -/

/-- What an operation of another partition leaves: the store, who holds which stream, and the streams. The
cache may drop the partition. -/
structure Untouched (p : PartitionDescriptor) (s s' : EventNamespaces) : Prop where
  root : s'.root = s.root
  rotationPolicy : s'.rotationPolicy = s.rotationPolicy
  store : s'.stores (p.path s.root) = s.stores (p.path s.root)
  held : s'.held p = s.held p
  streams : ∀ (n : Nat) (st : Stream), s'.streams[n]? = some st → st.directory = p.path s.root →
    s.streams[n]? = some st
  cached : ∀ c ∈ s'.cache.stores, c.key = p.cacheKey →
    ∃ c₀ ∈ s.cache.stores, c₀.key = p.cacheKey ∧ c₀.stream = c.stream

section Untouched

open EventNamespaces

variable {s : EventNamespaces} {p q : PartitionDescriptor}

/-- Opening another partition. -/
theorem untouched_openPartition (hne : q ≠ p) (s : EventNamespaces) (x : Nat) (env : OpenEnv)
    (storeEnv : Nat → StoreEnv) : Untouched p s (s.openPartition q x env storeEnv).2 := by
  have hpath : p.path s.root ≠ q.path s.root := fun h => hne (path_injective h.symm)
  have hends := openEnds q x env storeEnv s
  generalize s.openPartition q x env storeEnv = r at hends
  have hcached : ∀ {cache'}, FromCache s.cache cache' → ∀ c ∈ cache'.stores, c.key = p.cacheKey →
      ∃ c₀ ∈ s.cache.stores, c₀.key = p.cacheKey ∧ c₀.stream = c.stream := by
    intro cache' hfrom c hc hkey
    obtain ⟨c₀, hc₀, hkey₀, hstream⟩ := hfrom c hc
    exact ⟨c₀, hc₀, hkey₀.trans hkey, hstream⟩
  -- a stream of the new list that is in the directory of `p` was there before
  have hstreams : ∀ opened (n : Nat) (st : Stream), (s.withOpened q opened).streams[n]? = some st →
      st.directory = p.path s.root → s.streams[n]? = some st := by
    intro opened n st hst hdirectory
    unfold withOpened at hst
    dsimp only at hst
    split at hst
    · by_cases hlt : n < s.streams.length
      · rwa [List.getElem?_append_left hlt] at hst
      · rw [List.getElem?_append_right (not_lt.1 hlt)] at hst
        obtain rfl := List.mem_singleton.1 (List.mem_of_getElem? hst)
        exact absurd hdirectory.symm hpath
    · exact hst
  cases hends with
  | absent e => exact ⟨rfl, rfl, rfl, rfl, fun n st hst _ => hst, hcached (.refl _)⟩
  | found c hfind =>
    exact ⟨rfl, rfl, rfl, hold_ne _ _ _ hne.symm, fun n st hst _ => hst,
      hcached (fromCache_touch _ _ _ _)⟩
  | added hmiss hok =>
    refine ⟨rfl, rfl, Function.update_of_ne hpath _ _, hold_ne _ _ _ hne.symm, hstreams _, ?_⟩
    intro c hc hkey
    rcases mem_afterMiss hc with ⟨hkey', -⟩ | ⟨-, hmem⟩
    · exact absurd (cacheKey_injective (hkey'.symm.trans hkey)) hne
    · exact ⟨c, hmem, hkey, rfl⟩
  | failed e herr =>
    exact ⟨rfl, rfl, Function.update_of_ne hpath _ _, rfl, hstreams _,
      hcached (fromCache_evictIdle _ _)⟩

/-- **The operations of another partition** leave the partition untouched. -/
theorem EventNamespaces.Owned.untouched [SerdeJson] (h : s.Owned) {op : Op} (hne : op.partition ≠ p) :
    Untouched p s (op.step s).2 := by
  cases op with
  | openPartition q x env storeEnv => exact untouched_openPartition hne s x env storeEnv
  | call q x m storeEnv =>
    show Untouched p s (s.call q x m storeEnv).2
    have hpath : p.path s.root ≠ q.path s.root := fun h => hne (path_injective h.symm)
    cases hn : s.held q x with
    | none =>
      rw [call_none hn]
      exact ⟨rfl, rfl, rfl, rfl, fun n st hst _ => hst, fun c hc hkey => ⟨c, hc, hkey, rfl⟩⟩
    | some n =>
      obtain ⟨st, hst, hdirectory⟩ := h.stream hn
      rw [call_some hn hst]
      refine ⟨rfl, rfl, Function.update_of_ne (hdirectory ▸ hpath) _ _, rfl, ?_,
        fun c hc hkey => ⟨c, hc, hkey, rfl⟩⟩
      intro k st' hst' hdirectory'
      rw [getElem?_called hst] at hst'
      by_cases hk : k = n
      · rw [if_pos hk] at hst'
        obtain rfl := Option.some.inj hst'
        exact absurd (hdirectory'.symm.trans hdirectory) hpath
      · rwa [if_neg hk] at hst'

end Untouched

end Events.Partitions
