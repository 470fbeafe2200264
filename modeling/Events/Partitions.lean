import Events.EventStream
import Events.Pool

/-!
# Namespaces, partitions and the store cache

`src/partitions.rs`: a partition is named by its namespace and its key, which are safe labels; its store is
the directory of that name, and the streams that were opened are kept in a cache until they are idle or
too many.

* **`PartitionDescriptor`** — a partition, with the labels that `ensure_partition` has checked.
* **`PartitionCache`** — the cache; `evictIdle`, `evictToCapacity`, and the calls that use them.
* **`Proper`** — what is asked of a call: it stays within the bound, caches what it opens, and evicts only
  when it has to.
* **`cache_bound_iff`** — in a run, a call does so unless it lowers the capacity to a number that is
  reached already.
-/

namespace Events.Partitions

open Events.Pool (Path Instant)

/-! ## Partitions -/

/-- The components of a text as a path: empty ones and `.` are dropped. -/
def pathOf (t : Text) : Path where
  isAbsolute := t.head? = some '/'
  components := (t.splitOn '/').filter fun c => c ≠ [] ∧ c ≠ ['.']

/-- `PathBuf::push`: an absolute path replaces what is there. -/
def push (path : Path) (t : Text) : Path := Pool.fullPath path (pathOf t)

/-- `EventNamespaces::partition_path`. -/
def partitionPath (root : Path) (namespaceName partitionKey : Text) : Path :=
  push (push root namespaceName) partitionKey

/-- A partition, which `ensure_partition` and `list_partitions` make. -/
structure PartitionDescriptor where
  namespaceName : Text
  partitionKey : Text
  safeNamespace : validateSafeLabel "namespace" namespaceName = .ok ()
  safeKey : validateSafeLabel "partition_key" partitionKey = .ok ()
  deriving DecidableEq

/-- `EventNamespaces::ensure_partition`, with the result of making the directory. -/
def ensurePartition (namespaceName partitionKey : Text) (created : Except EsError Unit) :
    Except EsError PartitionDescriptor :=
  match hn : validateSafeLabel "namespace" namespaceName with
  | .error e => .error e
  | .ok () =>
    match hk : validateSafeLabel "partition_key" partitionKey with
    | .error e => .error e
    | .ok () => created.map fun _ => ⟨namespaceName, partitionKey, hn, hk⟩

namespace PartitionDescriptor

/-- The path of the descriptor. -/
def path (root : Path) (p : PartitionDescriptor) : Path :=
  partitionPath root p.namespaceName p.partitionKey

/-- `format!("{}/{}", namespace, partition_key)`. -/
def cacheKey (p : PartitionDescriptor) : Text := p.namespaceName ++ '/' :: p.partitionKey

end PartitionDescriptor

/-! ## The cache -/

/-- A cached stream, by its number. -/
structure CachedStore where
  key : Text
  stream : Nat
  lastAccess : Instant
  deriving DecidableEq

structure PartitionCache where
  maxOpenStores : Nat
  idleStoreTtl : Duration
  stores : List CachedStore

/-- The cache that `EventNamespaces::open` makes. -/
def PartitionCache.new : PartitionCache := ⟨50, .fromSecs 300 (by decide), []⟩

/-- An order in which `HashMap::iter` may enumerate the stores. -/
structure IterOrder where
  list : List CachedStore → List CachedStore
  perm : ∀ l, (list l).Perm l

/-- The time since the last access is beyond the time to live. -/
def CachedStore.IdleAt (ttl : Duration) (now : Instant) (c : CachedStore) : Prop :=
  ttl.asNanos < now - c.lastAccess

instance (ttl : Duration) (now : Instant) (c : CachedStore) : Decidable (c.IdleAt ttl now) :=
  inferInstanceAs (Decidable (_ < _))

/-- `min_by_key`: the first of the least recently accessed. -/
def oldest : List CachedStore → Option CachedStore
  | [] => none
  | c :: cs => some (cs.foldl (fun best c => if c.lastAccess < best.lastAccess then c else best) c)

/-- `stores.remove`. -/
def remove (key : Text) (stores : List CachedStore) : List CachedStore :=
  stores.filter fun c => c.key ≠ key

/-- The loop of `evict_to_capacity`, which takes at most as many passes as there are stores. -/
def evictLoop (maxOpenStores : Nat) (order : IterOrder) : Nat → List CachedStore → List CachedStore
  | 0, stores => stores
  | passes + 1, stores =>
    if stores.length ≥ maxOpenStores then
      match oldest (order.list stores) with
      | some c => evictLoop maxOpenStores order passes (remove c.key stores)
      | none => stores
    else stores

namespace PartitionCache

/-- `PartitionCache::evict_idle`. -/
def evictIdle (now : Instant) (cache : PartitionCache) : PartitionCache :=
  { cache with stores := cache.stores.filter fun c => ¬c.IdleAt cache.idleStoreTtl now }

/-- `PartitionCache::evict_to_capacity`. -/
def evictToCapacity (order : IterOrder) (cache : PartitionCache) : PartitionCache :=
  { cache with
    stores := evictLoop cache.maxOpenStores order cache.stores.length cache.stores }

/-- `stores.get`. -/
def find (key : Text) (cache : PartitionCache) : Option CachedStore :=
  cache.stores.find? fun c => c.key = key

/-- Keep the time of an access. -/
def touch (key : Text) (now : Instant) (cache : PartitionCache) : PartitionCache :=
  { cache with
    stores := cache.stores.map fun c => if c.key = key then { c with lastAccess := now } else c }

/-- `stores.insert`. -/
def insert (c : CachedStore) (cache : PartitionCache) : PartitionCache :=
  { cache with stores := remove c.key cache.stores ++ [c] }

end PartitionCache

/-- What an open depends on besides the cache and the store. -/
structure OpenEnv where
  /-- Whether the directory is there. -/
  present : Bool := true
  /-- The readings of the clock: the first eviction; the access, or the second eviction; the insertion. -/
  first : Instant := 0
  second : Instant := 0
  third : Instant := 0
  order : IterOrder := ⟨id, fun l => .refl l⟩

/-- The open finds no stream in the cache. -/
def Misses (p : PartitionDescriptor) (env : OpenEnv) (cache : PartitionCache) : Prop :=
  (cache.evictIdle env.first).find p.cacheKey = none

instance (p : PartitionDescriptor) (env : OpenEnv) (cache : PartitionCache) :
    Decidable (Misses p env cache) := inferInstanceAs (Decidable (_ = none))

/-- `EventNamespaces::open_cached`; `opened` is the result of `EventStream::open_partitioned`, if it comes
to that. -/
def openCached (p : PartitionDescriptor) (env : OpenEnv) (opened : Except Abort Nat)
    (cache : PartitionCache) : Except Abort Nat × PartitionCache :=
  let cache := cache.evictIdle env.first
  match cache.find p.cacheKey with
  | some cached => (.ok cached.stream, cache.touch p.cacheKey env.second)
  | none =>
    match opened with
    | .error e => (.error e, cache)
    | .ok stream =>
      (.ok stream, ((cache.evictIdle env.second).evictToCapacity env.order).insert
        ⟨p.cacheKey, stream, env.third⟩)

/-- `Partition::open`. -/
def openPartition (root : Path) (p : PartitionDescriptor) (env : OpenEnv) (opened : Except Abort Nat)
    (cache : PartitionCache) : Except Abort Nat × PartitionCache :=
  if env.present then openCached p env opened cache
  else
    (.error (.es (.invalidPath
      s!"partition does not exist: {String.ofList (p.path root).toText}")), cache)

/-- `EventNamespaces::with_max_open_stores`. -/
def withMaxOpenStores (maxOpenStores : Nat) (order : IterOrder) (cache : PartitionCache) :
    Except EsError Unit × PartitionCache :=
  if maxOpenStores = 0 then
    (.error (.invalidPartition "max_open_stores must be greater than zero"), cache)
  else (.ok (), { cache with maxOpenStores := maxOpenStores }.evictToCapacity order)

/-- `EventNamespaces::with_idle_store_ttl`. -/
def withIdleStoreTtl (idleStoreTtl : Duration) (now : Instant) (cache : PartitionCache) :
    Except EsError Unit × PartitionCache :=
  if idleStoreTtl.isZero then
    (.error (.invalidPartition "idle_store_ttl must be greater than zero"), cache)
  else (.ok (), { cache with idleStoreTtl := idleStoreTtl }.evictIdle now)

/-! ## Calls -/

/-- A call on the cache. The instant of `with_max_open_stores` is that of the call, which it does not
read. -/
inductive Call where
  | openPartition (p : PartitionDescriptor) (env : OpenEnv) (opened : Except Abort Nat)
  | withMaxOpenStores (maxOpenStores : Nat) (order : IterOrder) (now : Instant)
  | withIdleStoreTtl (idleStoreTtl : Duration) (now : Instant)

namespace Call

/-- What the call does to the cache. -/
def step (root : Path) : Call → PartitionCache → PartitionCache
  | .openPartition p env opened, cache => (Partitions.openPartition root p env opened cache).2
  | .withMaxOpenStores maxOpenStores order _, cache =>
    (Partitions.withMaxOpenStores maxOpenStores order cache).2
  | .withIdleStoreTtl ttl now, cache => (Partitions.withIdleStoreTtl ttl now cache).2

/-- The instants of the call, in their order. -/
def instants : Call → List Instant
  | .openPartition _ env _ => [env.first, env.second, env.third]
  | .withMaxOpenStores _ _ now => [now]
  | .withIdleStoreTtl _ now => [now]

/-- The instant at which the call last looks for idle stores, and that of `with_max_open_stores`. -/
def looksAt (cache : PartitionCache) : Call → Instant
  | .openPartition p env opened =>
    if Misses p env cache ∧ opened.isOk then env.second else env.first
  | .withMaxOpenStores _ _ now => now
  | .withIdleStoreTtl _ now => now

end Call

/-- The caches before each call of a sequence, with the call. -/
def Run (root : Path) : PartitionCache → List Call → List (PartitionCache × Call)
  | _, [] => []
  | cache, call :: calls => (cache, call) :: Run root (call.step root cache) calls

/-- The clock does not go back. -/
def ClockOrdered (calls : List Call) : Prop := (calls.flatMap Call.instants).Pairwise (· ≤ ·)

instance (calls : List Call) : Decidable (ClockOrdered calls) :=
  inferInstanceAs (Decidable (List.Pairwise _ _))

/-- What is asked of a call. -/
structure Proper (root : Path) (cache : PartitionCache) (call : Call) : Prop where
  bounded : (call.step root cache).stores.length ≤ (call.step root cache).maxOpenStores
  opened : ∀ p env result stream, call = .openPartition p env result →
    (openPartition root p env result cache).1 = .ok stream →
    ∃ c ∈ (call.step root cache).stores, c.key = p.cacheKey ∧ c.stream = stream
  /-- A store that is removed without being idle makes room for another, and was opened least recently. -/
  evicts : ∀ c ∈ cache.stores,
    (∀ k ∈ (call.step root cache).stores, k.key = c.key → k.stream ≠ c.stream) →
    ¬c.IdleAt (call.step root cache).idleStoreTtl (call.looksAt cache) →
    (call.step root cache).maxOpenStores < (call.step root cache).stores.length + 1 ∧
      ∀ k ∈ cache.stores, k ∈ (call.step root cache).stores → c.lastAccess ≤ k.lastAccess

/-- The call does not set a capacity that the stores in use reach already. -/
def Meets (cache : PartitionCache) : Call → Prop
  | .withMaxOpenStores maxOpenStores _ now =>
    maxOpenStores = 0 ∨
      (cache.stores.filter fun c => ¬c.IdleAt cache.idleStoreTtl now).length < maxOpenStores
  | _ => True

/-! ## The eviction -/

section Evict

variable {stores : List CachedStore} {c k : CachedStore} {order : IterOrder} {maxOpenStores : Nat}

theorem oldest_spec (h : oldest stores = some c) :
    c ∈ stores ∧ ∀ k ∈ stores, c.lastAccess ≤ k.lastAccess := by
  cases stores with
  | nil => cases h
  | cons first rest =>
    obtain rfl := Option.some.inj h
    clear h
    -- the fold keeps the least recent of those it has seen
    induction rest generalizing first with
    | nil => exact ⟨List.mem_cons_self, fun k hk => by rw [List.mem_singleton.1 hk]; exact le_refl _⟩
    | cons next rest ih =>
      rw [List.foldl_cons]
      by_cases hlt : next.lastAccess < first.lastAccess
      · rw [if_pos hlt]
        obtain ⟨hmem, hle⟩ := ih next
        refine ⟨List.mem_cons_of_mem _ hmem, fun k hk => ?_⟩
        rcases List.mem_cons.1 hk with rfl | hk
        · exact (hle next List.mem_cons_self).trans hlt.le
        · exact hle k hk
      · rw [if_neg hlt]
        obtain ⟨hmem, hle⟩ := ih first
        refine ⟨?_, fun k hk => ?_⟩
        · rcases List.mem_cons.1 hmem with heq | hmem
          · rw [heq]
            exact List.mem_cons_self
          · exact List.mem_cons_of_mem _ (List.mem_cons_of_mem _ hmem)
        · rcases List.mem_cons.1 hk with rfl | hk
          · exact hle k List.mem_cons_self
          rcases List.mem_cons.1 hk with rfl | hk
          · exact (hle first List.mem_cons_self).trans (not_lt.1 hlt)
          · exact hle k (List.mem_cons_of_mem _ hk)

theorem oldest_isSome (h : stores ≠ []) : ∃ c, oldest stores = some c := by
  cases stores with
  | nil => exact absurd rfl h
  | cons c cs => exact ⟨_, rfl⟩

/-- Only one store has the key. -/
theorem length_remove (hkeys : (stores.map CachedStore.key).Nodup) (hc : c ∈ stores) :
    (remove c.key stores).length + 1 = stores.length := by
  induction stores with
  | nil => cases hc
  | cons first rest ih =>
    rw [List.map_cons, List.nodup_cons] at hkeys
    unfold remove at ih ⊢
    by_cases hkey : first.key = c.key
    · have hrest : rest.filter (fun k => k.key ≠ c.key) = rest := by
        refine List.filter_eq_self.2 fun k hk => ?_
        have hne : k.key ≠ c.key := fun h => hkeys.1 (List.mem_map.2 ⟨k, hk, h.trans hkey.symm⟩)
        simpa using hne
      rw [List.filter_cons_of_neg (by simpa using hkey), hrest]
      rfl
    · have hmem : c ∈ rest := (List.mem_cons.1 hc).resolve_left fun h => hkey (by rw [h])
      rw [List.filter_cons_of_pos (by simpa using hkey), List.length_cons, List.length_cons,
        ih hkeys.2 hmem]

theorem evictLoop_sublist (maxOpenStores : Nat) (order : IterOrder) (passes : Nat)
    (stores : List CachedStore) : (evictLoop maxOpenStores order passes stores).Sublist stores := by
  induction passes generalizing stores with
  | zero => exact List.Sublist.refl _
  | succ passes ih =>
    unfold evictLoop
    split
    · split
      · exact (ih _).trans List.filter_sublist
      · exact List.Sublist.refl _
    · exact List.Sublist.refl _

/-- **The loop evicts the least recently opened**, until there is room for one more. -/
theorem evictLoop_spec (hkeys : (stores.map CachedStore.key).Nodup) (hmax : 1 ≤ maxOpenStores)
    {passes : Nat} (hpasses : stores.length ≤ passes) :
    (evictLoop maxOpenStores order passes stores).Sublist stores ∧
      (evictLoop maxOpenStores order passes stores).length = min stores.length (maxOpenStores - 1) ∧
      ∀ c ∈ stores, c ∉ evictLoop maxOpenStores order passes stores →
        ∀ k ∈ evictLoop maxOpenStores order passes stores, c.lastAccess ≤ k.lastAccess := by
  induction passes generalizing stores with
  | zero =>
    obtain rfl := List.eq_nil_of_length_eq_zero (Nat.le_zero.1 hpasses)
    exact ⟨List.Sublist.slnil, by simp [evictLoop], fun c hc => by cases hc⟩
  | succ passes ih =>
    unfold evictLoop
    by_cases hfull : stores.length ≥ maxOpenStores
    · have hnonempty : order.list stores ≠ [] := by
        intro hnil
        have hlength := (order.perm stores).length_eq
        rw [hnil, List.length_nil] at hlength
        omega
      obtain ⟨c, hc⟩ := oldest_isSome hnonempty
      obtain ⟨hmem, hleast⟩ := oldest_spec hc
      rw [(order.perm stores).mem_iff] at hmem
      have hlength := length_remove hkeys hmem
      have hsub : (remove c.key stores).Sublist stores := List.filter_sublist
      obtain ⟨hsub', hlength', holdest⟩ := ih (hkeys.sublist (hsub.map _)) (by omega)
      rw [if_pos hfull, hc]
      refine ⟨hsub'.trans hsub, by rw [hlength']; omega, fun x hx hgone k hk => ?_⟩
      by_cases hkey : x.key = c.key
      · rw [List.inj_on_of_nodup_map hkeys hx hmem hkey]
        exact hleast k ((order.perm stores).mem_iff.2 ((hsub'.trans hsub).subset hk))
      · exact holdest x (List.mem_filter.2 ⟨hx, by simpa using hkey⟩) hgone k hk
    · rw [if_neg hfull]
      exact ⟨List.Sublist.refl _, by omega, fun x hx hgone => absurd hx hgone⟩

end Evict

/-! ## What every call keeps -/

/-- The keys are distinct, and the cache is within its bound. -/
structure Inv (cache : PartitionCache) : Prop where
  keys : (cache.stores.map CachedStore.key).Nodup
  positive : 1 ≤ cache.maxOpenStores
  bounded : cache.stores.length ≤ cache.maxOpenStores

theorem inv_new : Inv .new := ⟨.nil, by decide, by decide⟩

section Inv

variable {cache : PartitionCache} {p : PartitionDescriptor} {env : OpenEnv} {root : Path} {c : CachedStore}
  {now now' : Instant}

theorem CachedStore.IdleAt.mono {ttl : Duration} (h : c.IdleAt ttl now) (hle : now ≤ now') :
    c.IdleAt ttl now' := by
  exact lt_of_lt_of_le h (Nat.sub_le_sub_right hle c.lastAccess)

theorem mem_evictIdle : c ∈ (cache.evictIdle now).stores ↔
    c ∈ cache.stores ∧ ¬c.IdleAt cache.idleStoreTtl now := by
  unfold PartitionCache.evictIdle
  rw [List.mem_filter, decide_eq_true_eq]

theorem find_eq_none {key : Text} : cache.find key = none ↔ ∀ c ∈ cache.stores, c.key ≠ key := by
  unfold PartitionCache.find
  simp [List.find?_eq_none]

theorem find_eq_some {key : Text} (h : cache.find key = some c) : c ∈ cache.stores ∧ c.key = key :=
  ⟨List.mem_of_find?_eq_some h, by simpa using List.find?_some h⟩

theorem Inv.evictIdle (h : Inv cache) (now : Instant) : Inv (cache.evictIdle now) where
  keys := h.keys.sublist (List.filter_sublist.map _)
  positive := h.positive
  bounded := (List.length_filter_le _ _).trans h.bounded

theorem Inv.touch (h : Inv cache) (key : Text) (now : Instant) : Inv (cache.touch key now) where
  keys := by
    have hsame : (cache.touch key now).stores.map CachedStore.key = cache.stores.map CachedStore.key := by
      unfold PartitionCache.touch
      rw [List.map_map]
      refine List.map_congr_left fun c _ => ?_
      show (if c.key = key then { c with lastAccess := now } else c).key = c.key
      split <;> rfl
    rw [hsame]
    exact h.keys
  positive := h.positive
  bounded := by
    show (cache.stores.map _).length ≤ _
    rw [List.length_map]
    exact h.bounded

/-- The cache after an open that has found no stream, with the new one. -/
def afterMiss (p : PartitionDescriptor) (env : OpenEnv) (stream : Nat) (cache : PartitionCache) :
    PartitionCache :=
  (((cache.evictIdle env.first).evictIdle env.second).evictToCapacity env.order).insert
    ⟨p.cacheKey, stream, env.third⟩

/-- What a new stream leaves of the others. -/
def left (env : OpenEnv) (cache : PartitionCache) : List CachedStore :=
  (((cache.evictIdle env.first).evictIdle env.second).evictToCapacity env.order).stores

theorem Inv.left_spec (h : Inv cache) (env : OpenEnv) :
    (left env cache).Sublist ((cache.evictIdle env.first).evictIdle env.second).stores ∧
      (left env cache).length =
        min ((cache.evictIdle env.first).evictIdle env.second).stores.length (cache.maxOpenStores - 1) ∧
      ∀ c ∈ ((cache.evictIdle env.first).evictIdle env.second).stores, c ∉ left env cache →
        ∀ k ∈ left env cache, c.lastAccess ≤ k.lastAccess :=
  evictLoop_spec ((h.evictIdle _).evictIdle _).keys h.positive (le_refl _)

/-- No other store has the key of the new one. -/
theorem Inv.stores_afterMiss (h : Inv cache) (hmiss : Misses p env cache) (stream : Nat) :
    (afterMiss p env stream cache).stores = left env cache ++ [⟨p.cacheKey, stream, env.third⟩] := by
  have hnew : remove p.cacheKey (left env cache) = left env cache := by
    refine List.filter_eq_self.2 fun c hc => ?_
    have hmem := (mem_evictIdle.1 ((h.left_spec env).1.subset hc)).1
    simpa using find_eq_none.1 hmiss c hmem
  show remove p.cacheKey (left env cache) ++ _ = _
  rw [hnew]

theorem Inv.missed (h : Inv cache) (hmiss : Misses p env cache) (stream : Nat) :
    Inv (afterMiss p env stream cache) where
  keys := by
    obtain ⟨hsub, -, -⟩ := h.left_spec env
    rw [h.stores_afterMiss hmiss, List.map_append, List.nodup_append]
    refine ⟨((h.evictIdle _).evictIdle _).keys.sublist (hsub.map _), by simp, ?_⟩
    intro key hkey key' hkey' heq
    obtain ⟨c, hc, rfl⟩ := List.mem_map.1 hkey
    have hne := find_eq_none.1 hmiss c (mem_evictIdle.1 (hsub.subset hc)).1
    simp only [List.map_cons, List.map_nil, List.mem_singleton] at hkey'
    exact hne (heq.trans hkey')
  positive := h.positive
  bounded := by
    obtain ⟨-, hlength, -⟩ := h.left_spec env
    have hpositive := h.positive
    rw [h.stores_afterMiss hmiss, List.length_append, List.length_singleton, hlength]
    show _ ≤ cache.maxOpenStores
    omega

/-- How an open ends: it changes nothing, it evicts idle stores only, it uses a cached stream, or it caches a
new one. -/
theorem openPartition_cases (root : Path) (p : PartitionDescriptor) (env : OpenEnv)
    (opened : Except Abort Nat) (cache : PartitionCache) :
    (∃ e, openPartition root p env opened cache = (.error e, cache)) ∨
    (∃ e, opened = .error e ∧ openPartition root p env opened cache =
      (.error e, cache.evictIdle env.first)) ∨
    (∃ c ∈ (cache.evictIdle env.first).stores, c.key = p.cacheKey ∧ ¬Misses p env cache ∧
      openPartition root p env opened cache =
        (.ok c.stream, (cache.evictIdle env.first).touch p.cacheKey env.second)) ∨
    ∃ stream, Misses p env cache ∧ opened = .ok stream ∧
      openPartition root p env opened cache = (.ok stream, afterMiss p env stream cache) := by
  unfold openPartition
  cases env.present with
  | false => exact .inl ⟨_, rfl⟩
  | true =>
    rw [if_pos rfl]
    unfold openCached Misses
    cases hfind : (cache.evictIdle env.first).find p.cacheKey with
    | some c =>
      obtain ⟨hmem, hkey⟩ := find_eq_some hfind
      exact .inr (.inr (.inl ⟨c, hmem, hkey, by simp, by simp [hfind]⟩))
    | none =>
      cases opened with
      | error e => exact .inr (.inl ⟨e, rfl, by simp [hfind]⟩)
      | ok stream => exact .inr (.inr (.inr ⟨stream, rfl, rfl, by simp [hfind, afterMiss]⟩))

theorem withIdleStoreTtl_cases (ttl : Duration) (now : Instant) (cache : PartitionCache) :
    (∃ e, withIdleStoreTtl ttl now cache = (.error e, cache)) ∨
      withIdleStoreTtl ttl now cache = (.ok (), { cache with idleStoreTtl := ttl }.evictIdle now) := by
  unfold withIdleStoreTtl
  cases ttl.isZero with
  | true => exact .inl ⟨_, if_pos rfl⟩
  | false => exact .inr (if_neg (by decide))

/-- A call keeps the cache within its bound. -/
theorem Inv.step (h : Inv cache) (root : Path) (call : Call) : Inv (call.step root cache) := by
  cases call with
  | openPartition p env opened =>
    show Inv (openPartition root p env opened cache).2
    rcases openPartition_cases root p env opened cache with
      ⟨e, heq⟩ | ⟨e, -, heq⟩ | ⟨c, -, -, -, heq⟩ | ⟨stream, hmiss, -, heq⟩
    · rw [heq]
      exact h
    · rw [heq]
      exact h.evictIdle _
    · rw [heq]
      exact (h.evictIdle _).touch _ _
    · rw [heq]
      exact h.missed hmiss stream
  | withMaxOpenStores maxOpenStores order now =>
    show Inv (withMaxOpenStores maxOpenStores order cache).2
    unfold withMaxOpenStores
    by_cases hzero : maxOpenStores = 0
    · rw [if_pos hzero]
      exact h
    · rw [if_neg hzero]
      obtain ⟨hsub, hlength, -⟩ := @evictLoop_spec cache.stores order maxOpenStores h.keys
        (show 1 ≤ maxOpenStores by omega) _ (le_refl cache.stores.length)
      refine ⟨h.keys.sublist (hsub.map _), Nat.one_le_iff_ne_zero.2 hzero, ?_⟩
      show (evictLoop maxOpenStores order cache.stores.length cache.stores).length ≤ maxOpenStores
      omega
  | withIdleStoreTtl ttl now =>
    show Inv (withIdleStoreTtl ttl now cache).2
    rcases withIdleStoreTtl_cases ttl now cache with ⟨e, heq⟩ | heq
    · rw [heq]
      exact h
    · rw [heq]
      have hset : Inv { cache with idleStoreTtl := ttl } := ⟨h.keys, h.positive, h.bounded⟩
      exact hset.evictIdle now

/-- A cached store is still cached when another step has kept its key and its stream. -/
theorem Proper.of_kept {call : Call} (kept : List CachedStore)
    (hbound : (call.step root cache).stores.length ≤ (call.step root cache).maxOpenStores)
    (hopened : ∀ p env result stream, call = .openPartition p env result →
      (openPartition root p env result cache).1 = .ok stream →
      ∃ c ∈ (call.step root cache).stores, c.key = p.cacheKey ∧ c.stream = stream)
    (hidle : ∀ c ∈ cache.stores, c ∉ kept →
      c.IdleAt (call.step root cache).idleStoreTtl (call.looksAt cache))
    (hkept : ∀ c ∈ kept, ∃ k ∈ (call.step root cache).stores, k.key = c.key ∧ k.stream = c.stream) :
    Proper root cache call := by
  refine ⟨hbound, hopened, fun c hc hgone hnot => ?_⟩
  by_cases hmem : c ∈ kept
  · obtain ⟨k, hk, hkey, hstream⟩ := hkept c hmem
    exact absurd hstream (hgone k hk hkey)
  · exact absurd (hidle c hc hmem) hnot

/-- An open is proper. -/
theorem Inv.proper_open (h : Inv cache) (root : Path) (p : PartitionDescriptor) (env : OpenEnv)
    (opened : Except Abort Nat) (hclock : env.first ≤ env.second ∧ env.second ≤ env.third) :
    Proper root cache (.openPartition p env opened) := by
  have hbound := (h.step root (.openPartition p env opened)).bounded
  have hfirst : ∀ c ∈ cache.stores, c ∉ (cache.evictIdle env.first).stores →
      c.IdleAt cache.idleStoreTtl (Call.looksAt cache (.openPartition p env opened)) := by
    intro c hc hgone
    have hidle : c.IdleAt cache.idleStoreTtl env.first := by
      by_contra hnot
      exact hgone (mem_evictIdle.2 ⟨hc, hnot⟩)
    show c.IdleAt _ (if _ then _ else _)
    split
    · exact hidle.mono hclock.1
    · exact hidle
  rcases openPartition_cases root p env opened cache with
    ⟨e, heq⟩ | ⟨e, -, heq⟩ | ⟨c₀, hmem₀, hkey₀, -, heq⟩ | ⟨stream, hmiss, hopened, heq⟩
  · have hstep : Call.step root (.openPartition p env opened) cache = cache := congrArg Prod.snd heq
    refine .of_kept cache.stores hbound ?_ (fun c hc hgone => absurd hc hgone) ?_
    · rintro _ _ _ stream ⟨⟩ hok
      rw [heq] at hok
      cases hok
    · rw [hstep]
      exact fun c hc => ⟨c, hc, rfl, rfl⟩
  · have hstep : Call.step root (.openPartition p env opened) cache = cache.evictIdle env.first :=
      congrArg Prod.snd heq
    refine .of_kept (cache.evictIdle env.first).stores hbound ?_ ?_ ?_
    · rintro _ _ _ stream ⟨⟩ hok
      rw [heq] at hok
      cases hok
    · rw [hstep]
      exact hfirst
    · rw [hstep]
      exact fun c hc => ⟨c, hc, rfl, rfl⟩
  · have hstep : Call.step root (.openPartition p env opened) cache =
        (cache.evictIdle env.first).touch p.cacheKey env.second := congrArg Prod.snd heq
    have htouched : ∀ c ∈ (cache.evictIdle env.first).stores,
        ∃ k ∈ ((cache.evictIdle env.first).touch p.cacheKey env.second).stores,
          k.key = c.key ∧ k.stream = c.stream := by
      intro c hc
      refine ⟨_, List.mem_map.2 ⟨c, hc, rfl⟩, ?_, ?_⟩
      · split <;> rfl
      · split <;> rfl
    refine .of_kept (cache.evictIdle env.first).stores hbound ?_ ?_ ?_
    · rintro _ _ _ stream ⟨⟩ hok
      rw [heq] at hok
      obtain rfl : c₀.stream = stream := Except.ok.inj hok
      rw [hstep]
      obtain ⟨k, hk, hkey, hstream⟩ := htouched c₀ hmem₀
      exact ⟨k, hk, hkey.trans hkey₀, hstream⟩
    · rw [hstep]
      exact hfirst
    · rw [hstep]
      exact htouched
  · have hstep : Call.step root (.openPartition p env opened) cache = afterMiss p env stream cache :=
      congrArg Prod.snd heq
    have hstores := h.stores_afterMiss hmiss stream
    obtain ⟨hsub, hlength, holdest⟩ := h.left_spec env
    have hpositive := h.positive
    refine ⟨hbound, ?_, ?_⟩
    · rintro _ _ _ stream' ⟨⟩ hok
      rw [heq] at hok
      obtain rfl : stream = stream' := Except.ok.inj hok
      rw [hstep, hstores]
      exact ⟨_, List.mem_append_right _ List.mem_cons_self, rfl, rfl⟩
    · intro c hc hgone hnot
      rw [hstep] at hgone hnot ⊢
      rw [hstores] at hgone ⊢
      -- the store was there when the eviction began, which has taken it
      have hnot₂ : ¬c.IdleAt cache.idleStoreTtl env.second := by
        have hlooks : Call.looksAt cache (.openPartition p env opened) = env.second :=
          if_pos ⟨hmiss, by rw [hopened]; rfl⟩
        rwa [hlooks] at hnot
      have hthere : c ∈ ((cache.evictIdle env.first).evictIdle env.second).stores :=
        mem_evictIdle.2 ⟨mem_evictIdle.2 ⟨hc, fun hidle => hnot₂ (hidle.mono hclock.1)⟩, hnot₂⟩
      have hevicted : c ∉ left env cache := fun hmem => hgone c (List.mem_append_left _ hmem) rfl rfl
      have hfewer : (left env cache).length <
          ((cache.evictIdle env.first).evictIdle env.second).stores.length := by
        refine lt_of_le_of_ne hsub.length_le fun hlen => hevicted ?_
        rw [hsub.eq_of_length hlen]
        exact hthere
      refine ⟨?_, fun k hk hkept => ?_⟩
      · show cache.maxOpenStores < _
        rw [List.length_append, List.length_singleton]
        omega
      · rcases List.mem_append.1 hkept with hkept | hnew
        · exact holdest c hthere hevicted k hkept
        · -- a store of this key was idle: it is not the new one
          obtain rfl := List.mem_singleton.1 hnew
          have hidle : CachedStore.IdleAt cache.idleStoreTtl env.first ⟨p.cacheKey, stream, env.third⟩ := by
            by_contra hlive
            exact find_eq_none.1 hmiss _ (mem_evictIdle.2 ⟨hk, hlive⟩) rfl
          have hzero : env.first - env.third = 0 :=
            Nat.sub_eq_zero_of_le (hclock.1.trans hclock.2)
          unfold CachedStore.IdleAt at hidle
          rw [hzero] at hidle
          exact absurd hidle (Nat.not_lt_zero _)

/-- **Lowering the capacity** is proper if and only if fewer stores are in use. -/
theorem Inv.proper_withMaxOpenStores_iff (h : Inv cache) (root : Path) {maxOpenStores : Nat}
    (hpos : maxOpenStores ≠ 0) (order : IterOrder) (now : Instant) :
    Proper root cache (.withMaxOpenStores maxOpenStores order now) ↔
      (cache.stores.filter fun c => ¬c.IdleAt cache.idleStoreTtl now).length < maxOpenStores := by
  have hstep : Call.step root (.withMaxOpenStores maxOpenStores order now) cache =
      { cache with maxOpenStores := maxOpenStores }.evictToCapacity order := by
    show (withMaxOpenStores maxOpenStores order cache).2 = _
    unfold withMaxOpenStores
    rw [if_neg hpos]
  obtain ⟨hsub, hlength, holdest⟩ := @evictLoop_spec cache.stores order maxOpenStores h.keys
    (Nat.one_le_iff_ne_zero.2 hpos) _ (le_refl cache.stores.length)
  have hstores : (Call.step root (.withMaxOpenStores maxOpenStores order now) cache).stores =
      evictLoop maxOpenStores order cache.stores.length cache.stores := by rw [hstep]; rfl
  have hmax : (Call.step root (.withMaxOpenStores maxOpenStores order now) cache).maxOpenStores =
      maxOpenStores := by rw [hstep]; rfl
  have httl : (Call.step root (.withMaxOpenStores maxOpenStores order now) cache).idleStoreTtl =
      cache.idleStoreTtl := by rw [hstep]; rfl
  generalize evictLoop maxOpenStores order cache.stores.length cache.stores = left at *
  have hnodup : (cache.stores.filter fun c => ¬c.IdleAt cache.idleStoreTtl now).Nodup :=
    (List.Nodup.of_map _ h.keys).filter _
  constructor
  · intro hproper
    by_contra hmany
    -- one of the stores in use is gone, although there was room for it
    obtain ⟨c, hc, hgone⟩ : ∃ c ∈ cache.stores.filter fun c => ¬c.IdleAt cache.idleStoreTtl now,
        c ∉ left := by
      by_contra hall
      have hsubset : (cache.stores.filter fun c => ¬c.IdleAt cache.idleStoreTtl now) ⊆ left := by
        intro c hc
        by_contra hgone
        exact hall ⟨c, hc, hgone⟩
      have := hnodup.length_le_of_subset hsubset
      omega
    rw [List.mem_filter, decide_eq_true_eq] at hc
    have hneeded := (hproper.evicts c hc.1 ?_ ?_).1
    · rw [hmax, hstores] at hneeded
      omega
    · intro k hk hkey
      rw [hstores] at hk
      have hsame := List.inj_on_of_nodup_map h.keys (hsub.subset hk) hc.1 hkey
      exact absurd (hsame ▸ hk) hgone
    · rw [httl]
      exact hc.2
  · intro hfew
    refine ⟨by rw [hmax, hstores]; omega, fun p env result stream hcall => (by cases hcall), ?_⟩
    intro c hc hgone hnot
    exfalso
    rw [httl] at hnot
    have hevicted : c ∉ left := by
      intro hmem
      rw [hstores] at hgone
      exact hgone c hmem rfl rfl
    -- with the store, those that are left are in use
    have huse : ∀ k ∈ left, ¬k.IdleAt cache.idleStoreTtl now := by
      intro k hk hidle
      have hle := holdest c hc hevicted k hk
      exact hnot (lt_of_lt_of_le hidle (Nat.sub_le_sub_left hle now))
    have hsubset : c :: left ⊆ cache.stores.filter fun c => ¬c.IdleAt cache.idleStoreTtl now := by
      intro k hk
      rw [List.mem_filter, decide_eq_true_eq]
      rcases List.mem_cons.1 hk with rfl | hk
      · exact ⟨hc, hnot⟩
      · exact ⟨hsub.subset hk, huse k hk⟩
    have hnodup' : (c :: left).Nodup :=
      List.nodup_cons.2 ⟨hevicted, (List.Nodup.of_map _ h.keys).sublist hsub⟩
    have hcount := hnodup'.length_le_of_subset hsubset
    have hfewer : left.length < cache.stores.length := by
      refine lt_of_le_of_ne hsub.length_le fun hlen => hevicted ?_
      rw [hsub.eq_of_length hlen]
      exact hc
    rw [List.length_cons] at hcount
    omega

/-- **One call** is proper if and only if it does not set a capacity that is reached already. -/
theorem Inv.proper_iff (h : Inv cache) (root : Path) (call : Call)
    (hclock : call.instants.Pairwise (· ≤ ·)) : Proper root cache call ↔ Meets cache call := by
  cases call with
  | openPartition p env opened =>
    refine iff_of_true (h.proper_open root p env opened ?_) trivial
    unfold Call.instants at hclock
    simp only [List.pairwise_cons, List.mem_cons, List.not_mem_nil, or_false, forall_eq_or_imp,
      forall_eq] at hclock
    exact ⟨hclock.1.1, hclock.2.1⟩
  | withMaxOpenStores maxOpenStores order now =>
    by_cases hzero : maxOpenStores = 0
    · -- zero is refused and nothing changes
      subst hzero
      refine iff_of_true ?_ (.inl rfl)
      exact .of_kept cache.stores h.bounded (fun _ _ _ _ hcall => by cases hcall)
        (fun c hc hgone => absurd hc hgone) fun c hc => ⟨c, hc, rfl, rfl⟩
    · rw [h.proper_withMaxOpenStores_iff root hzero order now]
      exact (or_iff_right hzero).symm
  | withIdleStoreTtl ttl now =>
    refine iff_of_true ?_ trivial
    have hbound := (h.step root (.withIdleStoreTtl ttl now)).bounded
    have hnone : ∀ p env result stream, Call.withIdleStoreTtl ttl now = .openPartition p env result →
        (openPartition root p env result cache).1 = .ok stream →
        ∃ c ∈ (Call.step root (.withIdleStoreTtl ttl now) cache).stores,
          c.key = p.cacheKey ∧ c.stream = stream := fun _ _ _ _ hcall => by cases hcall
    rcases withIdleStoreTtl_cases ttl now cache with ⟨e, heq⟩ | heq
    · -- a zero TTL is refused
      have hstep : Call.step root (.withIdleStoreTtl ttl now) cache = cache := congrArg Prod.snd heq
      refine .of_kept cache.stores hbound hnone (fun c hc hgone => absurd hc hgone) ?_
      rw [hstep]
      exact fun c hc => ⟨c, hc, rfl, rfl⟩
    · -- otherwise the stores that are idle by the new TTL go
      have hstep : Call.step root (.withIdleStoreTtl ttl now) cache =
          { cache with idleStoreTtl := ttl }.evictIdle now := congrArg Prod.snd heq
      refine .of_kept ({ cache with idleStoreTtl := ttl }.evictIdle now).stores hbound hnone
        ?_ ?_
      · intro c hc hgone
        rw [hstep]
        by_contra hnot
        exact hgone (mem_evictIdle.2 ⟨hc, hnot⟩)
      · rw [hstep]
        exact fun c hc => ⟨c, hc, rfl, rfl⟩

/-- Every cache of a run. -/
theorem Inv.run (h : Inv cache) (calls : List Call) : ∀ x ∈ Run root cache calls, Inv x.1 := by
  induction calls generalizing cache with
  | nil => exact fun x hx => by cases hx
  | cons call calls ih =>
    intro x hx
    rcases List.mem_cons.1 hx with rfl | hx
    · exact h
    · exact ih (h.step root call) x hx

end Inv

/-- **The cache is bounded and evicts only when it has to.** In every sequence of calls under a clock that
does not go back, a call is proper if and only if it does not set a capacity that the stores in use reach
already. -/
theorem cache_bound_iff (root : Path) {calls : List Call} (hclock : ClockOrdered calls) :
    ∀ x ∈ Run root .new calls, Proper root x.1 x.2 ↔ Meets x.1 x.2 := by
  have hinstants : ∀ call ∈ calls, call.instants.Pairwise (· ≤ ·) :=
    (List.pairwise_flatMap.1 hclock).1
  have hcall : ∀ {calls cache}, ∀ x ∈ Run root cache calls, x.2 ∈ calls := by
    intro calls
    induction calls with
    | nil => exact fun x hx => by cases hx
    | cons call calls ih =>
      intro cache x hx
      rcases List.mem_cons.1 hx with rfl | hx
      · exact List.mem_cons_self
      · exact List.mem_cons_of_mem _ (ih x hx)
  exact fun x hx => (inv_new.run calls x hx).proper_iff root x.2 (hinstants x.2 (hcall x hx))

/-- `users` and `orders`, of a shop. -/
def users : PartitionDescriptor := ⟨['s', 'h', 'o', 'p'], ['u', 's', 'e', 'r', 's'], by decide, by decide⟩

def orders : PartitionDescriptor :=
  ⟨['s', 'h', 'o', 'p'], ['o', 'r', 'd', 'e', 'r', 's'], by decide, by decide⟩

/-- The elements are enumerated as they were inserted. -/
def inserted : IterOrder := ⟨id, fun l => .refl l⟩

/-- Two partitions under a capacity of one. -/
def oneByOne : List Call :=
  [.withMaxOpenStores 1 inserted 0, .openPartition users ⟨true, 1, 2, 3, inserted⟩ (.ok 0),
    .openPartition orders ⟨true, 4, 5, 6, inserted⟩ (.ok 1)]

theorem cache_bound_iff_oneByOne : ClockOrdered oneByOne ∧
    ∀ x ∈ Run ⟨true, []⟩ .new oneByOne, Proper ⟨true, []⟩ x.1 x.2 ↔ Meets x.1 x.2 :=
  ⟨by decide, cache_bound_iff ⟨true, []⟩ (by decide)⟩

/-- A capacity of two for two partitions that are open: the one that was opened first is evicted. -/
theorem not_proper_sameCapacity :
    ClockOrdered [.openPartition users ⟨true, 1, 2, 3, inserted⟩ (.ok 0),
      .openPartition orders ⟨true, 4, 5, 6, inserted⟩ (.ok 1), .withMaxOpenStores 2 inserted 7] ∧
    ¬∀ x ∈ Run ⟨true, []⟩ .new [.openPartition users ⟨true, 1, 2, 3, inserted⟩ (.ok 0),
      .openPartition orders ⟨true, 4, 5, 6, inserted⟩ (.ok 1), .withMaxOpenStores 2 inserted 7],
        Proper ⟨true, []⟩ x.1 x.2 := by
  refine ⟨by decide, fun h => ?_⟩
  have hlast := h _ (List.mem_cons_of_mem _ (List.mem_cons_of_mem _ List.mem_cons_self))
  have hgone := (hlast.evicts ⟨users.cacheKey, 0, 3⟩ (by decide) (by decide) (by decide)).1
  exact absurd hgone (by decide)

end Events.Partitions
