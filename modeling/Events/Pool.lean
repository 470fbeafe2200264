import Mathlib.Data.List.Perm.Basic
import Mathlib.Data.List.Sort
import Events.Error

/-!
# The database pool

`src/pool.rs`: the cache of open databases. A `Database` instance is cached under its full path and
shared by the connections made from it; `get_database` evicts instances without connections before
it caches a new one.

* **`State`** — the cache, the instances behind their `Arc`s, the connections not yet dropped.
* **`getConnection`, `drop`** — the two calls of a client, and **`Run`**, a sequence of them.
* **`evictLoop_eq`** — the eviction removes the first idle instances in the order of their last
  access, up to its target.
* **`pool_bound_iff`** — in a run the bound holds after every call if and only if no call meets one
  of two situations: it caches an instance when the cache is exactly full and one is idle, or it
  caches none while the cache is above its bound and another instance is idle.
-/

namespace Events.Pool

/-- A path, by its components. -/
structure Path where
  isAbsolute : Bool
  components : List Text
  deriving DecidableEq

/-- `Path::join`. -/
def Path.join (root path : Path) : Path := ⟨root.isAbsolute, root.components ++ path.components⟩

def Path.toText (path : Path) : Text :=
  (if path.isAbsolute then ['/'] else []) ++ ['/'].intercalate path.components

/-- The address of a `DatabaseInstance`. -/
abbrev Arc := Nat

/-- A reading of the monotonic clock. -/
abbrev Instant := Nat

structure DatabaseInstance where
  lastAccess : Instant
  activeConnections : Nat
  /-- Whether a connection is kept for reuse. -/
  cachedConnection : Bool

/-- `DatabasePool`, the instances it has created, and the connections that are out. -/
structure State where
  databases : List (Path × Arc)
  instances : Arc → DatabaseInstance
  /-- The next free address. -/
  next : Arc
  /-- The instance of every `PooledConnection` that has not been dropped. -/
  connections : List Arc

namespace State

def empty : State := ⟨[], fun _ => ⟨0, 0, false⟩, 0, []⟩

def modify (s : State) (a : Arc) (f : DatabaseInstance → DatabaseInstance) : State :=
  { s with instances := Function.update s.instances a (f (s.instances a)) }

/-- Keep the time of an access. -/
def touch (s : State) (a : Arc) (now : Instant) : State :=
  s.modify a fun i => { i with lastAccess := now }

/-- `active_counter.fetch_add` and `fetch_sub`. -/
def acquire (s : State) (a : Arc) : State :=
  s.modify a fun i => { i with activeConnections := i.activeConnections + 1 }

def release (s : State) (a : Arc) : State :=
  s.modify a fun i => { i with activeConnections := i.activeConnections - 1 }

def setCached (s : State) (a : Arc) (cached : Bool) : State :=
  s.modify a fun i => { i with cachedConnection := cached }

end State

/-- An order in which `HashMap::iter` may enumerate the cache. -/
structure IterOrder where
  list : List (Path × Arc) → List (Path × Arc)
  perm : ∀ l, (list l).Perm l

/-- What a call depends on besides the pool. -/
structure CallEnv where
  /-- Whether the file is there. -/
  present : Bool := true
  now : Instant := 0
  /-- The failures of `turso::Builder`, `configure_database`, `Database::connect` and
  `configure_connection`. -/
  build : Option DbError := none
  configure : Option DbError := none
  connect : Option DbError := none
  configureConnection : Option DbError := none
  order : IterOrder := ⟨id, fun l => .refl l⟩

/-! ## Eviction -/

/-- An instance with its time of last access, as the eviction collects it. -/
structure Candidate where
  path : Path
  arc : Arc
  lastAccess : Instant
  deriving DecidableEq

def accessLe (x y : Candidate) : Prop := x.lastAccess ≤ y.lastAccess

instance : DecidableRel accessLe := fun _ _ => inferInstanceAs (Decidable (_ ≤ _))

instance : Std.Total accessLe := ⟨fun x y => le_total x.lastAccess y.lastAccess⟩

instance : IsTrans Candidate accessLe := ⟨fun _ _ _ => le_trans⟩

/-- `databases.remove`. -/
def remove (path : Path) (databases : List (Path × Arc)) : List (Path × Arc) :=
  databases.filter fun d => d.1 ≠ path

/-- The loop of `evict_old_databases`. -/
def evictLoop (instances : Arc → DatabaseInstance) (targetEvictions : Nat) :
    List Candidate → Nat → List (Path × Arc) → List (Path × Arc)
  | [], _, databases => databases
  | c :: rest, evicted, databases =>
    if evicted ≥ targetEvictions then databases
    else if (instances c.arc).activeConnections = 0 then
      evictLoop instances targetEvictions rest (evicted + 1) (remove c.path databases)
    else evictLoop instances targetEvictions rest evicted databases

/-- The candidates, oldest access first. -/
def candidates (instances : Arc → DatabaseInstance) (order : IterOrder)
    (databases : List (Path × Arc)) : List Candidate :=
  ((order.list databases).map fun d => ⟨d.1, d.2, (instances d.2).lastAccess⟩).insertionSort accessLe

/-- `DatabasePool::evict_old_databases`. -/
def evictOldDatabases (maxCached : Nat) (order : IterOrder) (s : State) : State :=
  if s.databases.length ≤ maxCached then s
  else
    let targetEvictions := s.databases.length - maxCached + 1
    { s with
      databases :=
        evictLoop s.instances targetEvictions (candidates s.instances order s.databases) 0 s.databases }

/-! ## The calls -/

/-- The full path of a database. -/
def fullPath (root path : Path) : Path := if path.isAbsolute then path else root.join path

/-- Cache a new instance. -/
def insert (maxCached : Nat) (env : CallEnv) (pathKey : Path) (s : State) : State :=
  let evicted := if s.databases.length ≥ maxCached then evictOldDatabases maxCached env.order s else s
  { evicted with
    databases := evicted.databases ++ [(pathKey, s.next)]
    instances := Function.update s.instances s.next ⟨env.now, 0, false⟩
    next := s.next + 1 }

/-- `DatabasePool::get_database`. -/
def getDatabase (maxCached : Nat) (root : Path) (env : CallEnv) (dbPath : Path) (s : State) :
    Except EsError Arc × State :=
  let path := fullPath root dbPath
  if env.present = false then
    (.error (.invalidPath s!"Database file does not exist: \"{String.ofList path.toText}\""), s)
  else
    match s.databases.lookup path with
    | some a => (.ok a, s.touch a env.now)
    | none =>
      match env.build, env.configure with
      | some e, _ => (.error (.db e), s)
      | none, some e => (.error (.db e), s)
      | none, none => (.ok s.next, insert maxCached env path s)

/-- The connection handed out. -/
def handOut (a : Arc) (s : State) : State := { s with connections := a :: s.connections }

/-- The part of `get_connection` after `get_database`. -/
def connectInstance (env : CallEnv) (a : Arc) (s : State) : Except EsError Arc × State :=
  let s := s.acquire a
  if (s.instances a).cachedConnection then (.ok a, handOut a (s.setCached a false))
  else
    match env.connect, env.configureConnection with
    | some e, _ => (.error (.db e), s.release a)
    | none, some e => (.error (.db e), s.release a)
    | none, none => (.ok a, handOut a s)

/-- `DatabasePool::get_connection`. -/
def getConnection (maxCached : Nat) (root : Path) (env : CallEnv) (dbPath : Path) (s : State) :
    Except EsError Arc × State :=
  match getDatabase maxCached root env dbPath s with
  | (.error e, s) => (.error e, s)
  | (.ok a, s) => connectInstance env a s

/-- `PooledConnection::drop` of the connection at a position. Nobody holds the instance's lock
between two calls, so the connection goes back to the instance. -/
def drop (position : Nat) (s : State) : State :=
  match s.connections[position]? with
  | none => s
  | some a =>
    { (s.setCached a true).release a with connections := s.connections.eraseIdx position }

inductive Event where
  | getConnection (env : CallEnv) (dbPath : Path)
  | drop (position : Nat)

def step (maxCached : Nat) (root : Path) : Event → State → State
  | .getConnection env dbPath, s => (getConnection maxCached root env dbPath s).2
  | .drop position, s => drop position s

/-- The states before each event of a sequence, with the event. -/
def Run (maxCached : Nat) (root : Path) : State → List Event → List (State × Event)
  | _, [] => []
  | s, e :: es => (s, e) :: Run maxCached root (step maxCached root e s) es

/-! ## The bound -/

/-- An instance with a live connection. -/
def Busy (s : State) (a : Arc) : Prop := a ∈ s.connections

instance (s : State) (a : Arc) : Decidable (Busy s a) := inferInstanceAs (Decidable (_ ∈ _))

/-- Every cached instance but that of `path` has a live connection. -/
def OthersBusy (path : Path) (s : State) : Prop := ∀ d ∈ s.databases, d.1 ≠ path → Busy s d.2

/-- The state after a call for `path` respects the bound. -/
def Bounded (maxCached : Nat) (path : Path) (s : State) : Prop :=
  s.databases.length ≤ maxCached ∨ OthersBusy path s

/-- No instance that a step evicted was accessed after an idle one that it kept. -/
def EvictsOldest (s s' : State) : Prop :=
  ∀ d ∈ s.databases, d ∉ s'.databases → ∀ k ∈ s.databases, k ∈ s'.databases → ¬ Busy s k.2 →
    (s.instances d.2).lastAccess ≤ (s.instances k.2).lastAccess

/-- The call caches a new instance. -/
def Caches (root : Path) (env : CallEnv) (dbPath : Path) (s : State) : Prop :=
  env.present = true ∧ s.databases.lookup (fullPath root dbPath) = none ∧ env.build = none ∧
    env.configure = none

instance (root : Path) (env : CallEnv) (dbPath : Path) (s : State) :
    Decidable (Caches root env dbPath s) := by unfold Caches; infer_instance

/-- The call is none of the two that break the bound: it caches an instance when the cache is not
exactly full or has no idle instance, or it caches none when the cache is not above its bound or has
no other idle instance. -/
def Meets (maxCached : Nat) (root : Path) (env : CallEnv) (dbPath : Path) (s : State) : Prop :=
  if Caches root env dbPath s then
    s.databases.length ≠ maxCached ∨ ∀ d ∈ s.databases, Busy s d.2
  else s.databases.length ≤ maxCached ∨ OthersBusy (fullPath root dbPath) s

/-! ## What every call keeps -/

/-- Paths and instances of the cache are distinct, and the counters count the live connections. -/
structure Inv (s : State) : Prop where
  paths : (s.databases.map Prod.fst).Nodup
  arcs : (s.databases.map Prod.snd).Nodup
  cached_lt : ∀ d ∈ s.databases, d.2 < s.next
  connected_lt : ∀ a ∈ s.connections, a < s.next
  counts : ∀ a, a < s.next → (s.instances a).activeConnections = s.connections.count a

theorem inv_empty : Inv .empty :=
  ⟨.nil, .nil, nofun, nofun, fun _ _ => rfl⟩

section Inv

variable {s : State}

theorem Inv.idle_iff (h : Inv s) {d : Path × Arc} (hd : d ∈ s.databases) :
    (s.instances d.2).activeConnections = 0 ↔ ¬ Busy s d.2 := by
  rw [h.counts _ (h.cached_lt d hd), List.count_eq_zero]
  rfl

theorem Inv.path_inj (h : Inv s) {d e : Path × Arc} (hd : d ∈ s.databases) (he : e ∈ s.databases)
    (hpath : d.1 = e.1) : d = e := List.inj_on_of_nodup_map h.paths hd he hpath

theorem Inv.arc_inj (h : Inv s) {d e : Path × Arc} (hd : d ∈ s.databases) (he : e ∈ s.databases)
    (harc : d.2 = e.2) : d = e := List.inj_on_of_nodup_map h.arcs hd he harc

/-- What an update of one instance that leaves its counter alone keeps. -/
theorem Inv.modify (h : Inv s) (a : Arc) {f : DatabaseInstance → DatabaseInstance}
    (hf : ∀ i, (f i).activeConnections = i.activeConnections) : Inv (s.modify a f) := by
  refine ⟨h.paths, h.arcs, h.cached_lt, h.connected_lt, fun b hb => ?_⟩
  show (Function.update s.instances a (f (s.instances a)) b).activeConnections =
    s.connections.count b
  rw [← h.counts b hb]
  rcases eq_or_ne b a with rfl | hne
  · rw [Function.update_self, hf]
  · rw [Function.update_of_ne hne]

/-- A connection is handed out. -/
theorem Inv.acquire (h : Inv s) {a : Arc} (ha : a < s.next) : Inv (handOut a (s.acquire a)) := by
  refine ⟨h.paths, h.arcs, h.cached_lt, ?_, fun b hb => ?_⟩
  · rintro b (_ | ⟨_, hb⟩)
    · exact ha
    · exact h.connected_lt b hb
  · show (Function.update s.instances a _ b).activeConnections = (a :: s.connections).count b
    rcases eq_or_ne b a with rfl | hne
    · rw [Function.update_self, List.count_cons_self, ← h.counts b ha]
    · rw [Function.update_of_ne hne, List.count_cons_of_ne hne.symm, h.counts b hb]

theorem acquire_release (s : State) (a : Arc) : (s.acquire a).release a = s := by
  unfold State.release State.acquire State.modify
  simp

theorem handOut_setCached (s : State) (a : Arc) (cached : Bool) :
    handOut a (s.setCached a cached) = (handOut a s).setCached a cached := rfl

end Inv

/-! ## The eviction -/

/-- The candidates that the eviction may take. -/
def idleCandidates (instances : Arc → DatabaseInstance) (cs : List Candidate) : List Candidate :=
  cs.filter fun c => (instances c.arc).activeConnections = 0

/-- **The loop removes the first idle candidates**, as many as its target leaves. -/
theorem evictLoop_eq (instances : Arc → DatabaseInstance) (targetEvictions : Nat)
    (cs : List Candidate) (evicted : Nat) (databases : List (Path × Arc)) :
    evictLoop instances targetEvictions cs evicted databases =
      databases.filter fun d => d.1 ∉
        ((idleCandidates instances cs).take (targetEvictions - evicted)).map Candidate.path := by
  induction cs generalizing evicted databases with
  | nil => simp [evictLoop, idleCandidates]
  | cons c rest ih =>
    unfold evictLoop
    by_cases htarget : evicted ≥ targetEvictions
    · rw [if_pos htarget, Nat.sub_eq_zero_of_le htarget]
      simp
    · rw [if_neg htarget]
      by_cases hidle : (instances c.arc).activeConnections = 0
      · have hhead : idleCandidates instances (c :: rest) = c :: idleCandidates instances rest :=
          List.filter_cons_of_pos (by simpa using hidle)
        have hleft : targetEvictions - evicted = targetEvictions - (evicted + 1) + 1 := by omega
        rw [if_pos hidle, ih, hhead, hleft, List.take_succ_cons, remove, List.filter_filter]
        refine List.filter_congr fun d _ => ?_
        simp [Bool.and_comm]
      · have hhead : idleCandidates instances (c :: rest) = idleCandidates instances rest :=
          List.filter_cons_of_neg (by simpa using hidle)
        rw [if_neg hidle, ih, hhead]

section Evict

variable {s : State} {order : IterOrder} {maxCached : Nat}

theorem mem_candidates {c : Candidate} :
    c ∈ candidates s.instances order s.databases ↔
      (c.path, c.arc) ∈ s.databases ∧ c.lastAccess = (s.instances c.arc).lastAccess := by
  unfold candidates
  rw [List.mem_insertionSort, List.mem_map]
  constructor
  · rintro ⟨d, hd, rfl⟩
    exact ⟨(order.perm _).mem_iff.mp hd, rfl⟩
  · rintro ⟨hc, htime⟩
    exact ⟨(c.path, c.arc), (order.perm _).mem_iff.mpr hc, by cases c; simp_all⟩

/-- The candidates that are evicted. -/
def victims (maxCached : Nat) (order : IterOrder) (s : State) : List Candidate :=
  (idleCandidates s.instances (candidates s.instances order s.databases)).take
    (s.databases.length - maxCached + 1)

theorem evictOldDatabases_databases (h : maxCached < s.databases.length) :
    (evictOldDatabases maxCached order s).databases =
      s.databases.filter fun d => d.1 ∉ (victims maxCached order s).map Candidate.path := by
  unfold evictOldDatabases
  rw [if_neg (Nat.not_le_of_lt h)]
  exact evictLoop_eq _ _ _ 0 _

theorem evictOldDatabases_of_le (h : s.databases.length ≤ maxCached) :
    evictOldDatabases maxCached order s = s := if_pos h

theorem evictOldDatabases_sublist :
    (evictOldDatabases maxCached order s).databases.Sublist s.databases := by
  rcases Nat.lt_or_ge maxCached s.databases.length with hlt | hle
  · rw [evictOldDatabases_databases hlt]
    exact List.filter_sublist
  · rw [evictOldDatabases_of_le hle]

/-- The paths of the victims are paths of the cache, each once. -/
theorem Inv.victims_nodup (h : Inv s) :
    ((victims maxCached order s).map Candidate.path).Nodup := by
  have hall : ((candidates s.instances order s.databases).map Candidate.path).Nodup := by
    have hperm : ((candidates s.instances order s.databases).map Candidate.path).Perm
        (s.databases.map Prod.fst) := by
      refine ((List.perm_insertionSort _ _).map _).trans ?_
      rw [List.map_map]
      exact (order.perm _).map _
    exact hperm.nodup_iff.mpr h.paths
  exact hall.sublist (((List.take_sublist _ _).trans List.filter_sublist).map _)

/-- **After an eviction** the cache has room for one more, or every instance left is busy. -/
theorem Inv.evicted (h : Inv s) (hfull : maxCached < s.databases.length) :
    (evictOldDatabases maxCached order s).databases.length + 1 ≤ maxCached ∨
      ∀ d ∈ (evictOldDatabases maxCached order s).databases, Busy s d.2 := by
  rw [evictOldDatabases_databases hfull]
  rcases Nat.lt_or_ge (idleCandidates s.instances
      (candidates s.instances order s.databases)).length (s.databases.length - maxCached + 1)
    with hfew | hmany
  · -- all idle instances are gone
    right
    intro d hd
    obtain ⟨hmem, hkept⟩ := List.mem_filter.mp hd
    by_contra hidle
    have hcand : (⟨d.1, d.2, (s.instances d.2).lastAccess⟩ : Candidate) ∈
        idleCandidates s.instances (candidates s.instances order s.databases) := by
      refine List.mem_filter.mpr ⟨mem_candidates.mpr ⟨hmem, rfl⟩, ?_⟩
      simpa using (h.idle_iff hmem).mpr hidle
    have hvictim : d.1 ∈ (victims maxCached order s).map Candidate.path := by
      refine List.mem_map.mpr ⟨⟨d.1, d.2, (s.instances d.2).lastAccess⟩, ?_, rfl⟩
      rw [victims, List.take_of_length_le hfew.le]
      exact hcand
    simp [hvictim] at hkept
  · -- as many as the target are gone
    left
    have hlen : ((victims maxCached order s).map Candidate.path).length =
        s.databases.length - maxCached + 1 := by
      rw [List.length_map, victims, List.length_take, Nat.min_eq_left hmany]
    have hsubset : (victims maxCached order s).map Candidate.path ⊆
        (s.databases.filter fun d => d.1 ∈ (victims maxCached order s).map Candidate.path).map
          Prod.fst := by
      intro p hp
      obtain ⟨c, hc, rfl⟩ := List.mem_map.mp hp
      have hmem := (mem_candidates.mp
        (List.mem_of_mem_filter (List.mem_of_mem_take hc))).1
      exact List.mem_map.mpr ⟨(c.path, c.arc), List.mem_filter.mpr ⟨hmem, by simpa using hp⟩, rfl⟩
    have hremoved := h.victims_nodup.length_le_of_subset hsubset
    rw [hlen, List.length_map] at hremoved
    have hsplit := s.databases.length_eq_length_filter_add
      fun d => d.1 ∈ (victims maxCached order s).map Candidate.path
    simp only [← decide_not] at hsplit
    omega

/-- **The eviction follows the order of the last accesses.** -/
theorem Inv.evictsOldest (h : Inv s) (maxCached : Nat) (order : IterOrder) {s' : State}
    (hkept : ∀ d ∈ s.databases,
      d ∈ s'.databases ↔ d ∈ (evictOldDatabases maxCached order s).databases) :
    EvictsOldest s s' := by
  intro d hd hgone k hk hstays hidle
  rw [hkept d hd] at hgone
  rw [hkept k hk] at hstays
  rcases Nat.lt_or_ge maxCached s.databases.length with hlt | hle
  · rw [evictOldDatabases_databases hlt] at hgone hstays
    have hvictim : d.1 ∈ (victims maxCached order s).map Candidate.path := by
      by_contra hnot
      exact hgone (List.mem_filter.mpr ⟨hd, by simpa using hnot⟩)
    have hsurvives : k.1 ∉ (victims maxCached order s).map Candidate.path := by
      simpa using (List.mem_filter.mp hstays).2
    obtain ⟨c, hc, hpath⟩ := List.mem_map.mp hvictim
    obtain ⟨hcmem, hctime⟩ := mem_candidates.mp (List.mem_of_mem_filter (List.mem_of_mem_take hc))
    have hcd : (c.path, c.arc) = d := h.path_inj hcmem hd hpath
    have harc : c.arc = d.2 := congrArg Prod.snd hcd
    have hkcand : (⟨k.1, k.2, (s.instances k.2).lastAccess⟩ : Candidate) ∈
        idleCandidates s.instances (candidates s.instances order s.databases) := by
      refine List.mem_filter.mpr ⟨mem_candidates.mpr ⟨hk, rfl⟩, ?_⟩
      simpa using (h.idle_iff hk).mpr hidle
    have hsorted : (idleCandidates s.instances
        (candidates s.instances order s.databases)).Pairwise accessLe :=
      (List.pairwise_insertionSort accessLe _).filter _
    rw [← List.take_append_drop (s.databases.length - maxCached + 1)
      (idleCandidates s.instances _)] at hkcand hsorted
    have hafter := (List.mem_append.mp hkcand).resolve_left fun hin =>
      hsurvives (List.mem_map.mpr ⟨_, hin, rfl⟩)
    have hle := (List.pairwise_append.mp hsorted).2.2 c hc _ hafter
    rw [accessLe, hctime, harc] at hle
    exact hle
  · rw [evictOldDatabases_of_le hle] at hgone
    exact absurd hd hgone

end Evict

/-! ## The calls -/

section Calls

variable {s : State} (maxCached : Nat) (root dbPath : Path) (env : CallEnv)

/-- What a call that caches an instance leaves of the others. -/
def left (maxCached : Nat) (env : CallEnv) (s : State) : List (Path × Arc) :=
  if s.databases.length ≥ maxCached then (evictOldDatabases maxCached env.order s).databases
  else s.databases

theorem insert_eq (pathKey : Path) :
    insert maxCached env pathKey s =
      ⟨left maxCached env s ++ [(pathKey, s.next)],
        Function.update s.instances s.next ⟨env.now, 0, false⟩, s.next + 1, s.connections⟩ := by
  have hconn : (evictOldDatabases maxCached env.order s).connections = s.connections := by
    unfold evictOldDatabases
    split <;> rfl
  unfold insert left
  split
  · exact congrArg (State.mk _ _ _) hconn
  · rfl

theorem left_eq :
    left maxCached env s = (evictOldDatabases maxCached env.order s).databases := by
  unfold left
  split
  · rfl
  · rw [evictOldDatabases_of_le (by omega)]

theorem left_sublist : (left maxCached env s).Sublist s.databases := by
  rw [left_eq]
  exact evictOldDatabases_sublist

theorem lookup_none_iff {pathKey : Path} :
    s.databases.lookup pathKey = none ↔ ∀ d ∈ s.databases, d.1 ≠ pathKey := by
  rw [List.lookup_eq_none_iff]
  refine forall₂_congr fun d _ => ?_
  rw [bne_iff_ne]
  exact ne_comm

/-- A new instance next to the ones that an eviction may leave. -/
theorem Inv.insert (h : Inv s) {pathKey : Path} (hnew : s.databases.lookup pathKey = none) :
    Inv (insert maxCached env pathKey s) := by
  have hsub := left_sublist maxCached env (s := s)
  rw [insert_eq]
  refine ⟨?_, ?_, ?_, fun a ha => Nat.lt_succ_of_lt (h.connected_lt a ha), fun a ha => ?_⟩
  · show ((left maxCached env s ++ [(pathKey, s.next)]).map Prod.fst).Nodup
    rw [List.map_append, List.nodup_append]
    refine ⟨h.paths.sublist (hsub.map _), by simp, ?_⟩
    intro p hp q hq heq
    obtain ⟨d, hd, rfl⟩ := List.mem_map.mp hp
    have hpath := lookup_none_iff.mp hnew d (hsub.subset hd)
    simp only [List.map_cons, List.map_nil, List.mem_singleton] at hq
    exact hpath (heq.trans hq)
  · show ((left maxCached env s ++ [(pathKey, s.next)]).map Prod.snd).Nodup
    rw [List.map_append, List.nodup_append]
    refine ⟨h.arcs.sublist (hsub.map _), by simp, ?_⟩
    intro a ha b hb heq
    obtain ⟨d, hd, rfl⟩ := List.mem_map.mp ha
    simp only [List.map_cons, List.map_nil, List.mem_singleton] at hb
    exact Nat.ne_of_lt (h.cached_lt d (hsub.subset hd)) (heq.trans hb)
  · intro d hd
    rcases List.mem_append.mp hd with hold | hself
    · exact Nat.lt_succ_of_lt (h.cached_lt d (hsub.subset hold))
    · rw [List.mem_singleton.mp hself]
      exact Nat.lt_succ_self _
  · show (Function.update s.instances s.next _ a).activeConnections = s.connections.count a
    rcases eq_or_ne a s.next with rfl | hne
    · rw [Function.update_self]
      exact (List.count_eq_zero.mpr fun hmem => Nat.lt_irrefl _ (h.connected_lt _ hmem)).symm
    · rw [Function.update_of_ne hne]
      exact h.counts a (Nat.lt_of_le_of_ne (Nat.le_of_lt_succ ha) hne)

/-- A call that caches an instance respects the bound unless the cache was exactly full and one of
its instances idle. -/
theorem Inv.bounded_insert (h : Inv s) {pathKey : Path} (hnew : s.databases.lookup pathKey = none)
    {t : State} (hdatabases : t.databases = left maxCached env s ++ [(pathKey, s.next)])
    (hbusy : ∀ a, a ≠ s.next → (Busy t a ↔ Busy s a)) :
    Bounded maxCached pathKey t ↔
      s.databases.length ≠ maxCached ∨ ∀ d ∈ s.databases, Busy s d.2 := by
  have hsub := left_sublist maxCached env (s := s)
  have hothers : OthersBusy pathKey t ↔ ∀ d ∈ left maxCached env s, Busy s d.2 := by
    unfold OthersBusy
    rw [hdatabases]
    constructor
    · intro hall d hd
      have hold := Nat.ne_of_lt (h.cached_lt d (hsub.subset hd))
      exact (hbusy d.2 hold).mp (hall d (List.mem_append_left _ hd)
        (lookup_none_iff.mp hnew d (hsub.subset hd)))
    · intro hall d hd hpath
      rcases List.mem_append.mp hd with hold | hself
      · have hne := Nat.ne_of_lt (h.cached_lt d (hsub.subset hold))
        exact (hbusy d.2 hne).mpr (hall d hold)
      · exact absurd (congrArg Prod.fst (List.mem_singleton.mp hself)) hpath
  have hlen : t.databases.length = (left maxCached env s).length + 1 := by
    rw [hdatabases, List.length_append, List.length_singleton]
  unfold Bounded
  rw [hothers, hlen]
  unfold left
  rcases Nat.lt_trichotomy s.databases.length maxCached with hlt | heq | hgt
  · -- there is room
    rw [if_neg (by omega)]
    exact ⟨fun _ => .inl (by omega), fun _ => .inl (by omega)⟩
  · -- exactly full: the eviction returns at once
    rw [if_pos heq.ge, evictOldDatabases_of_le heq.le]
    constructor
    · rintro (hle | hall)
      · omega
      · exact .inr hall
    · rintro (hne | hall)
      · exact absurd heq hne
      · exact .inr hall
  · rw [if_pos hgt.le]
    exact ⟨fun _ => .inl hgt.ne', fun _ => h.evicted hgt⟩

/-- A call that caches none leaves the bound as it was. -/
theorem bounded_same {path : Path} {t : State}
    (hdatabases : t.databases = s.databases)
    (hbusy : ∀ d ∈ s.databases, d.1 ≠ path → (Busy t d.2 ↔ Busy s d.2)) :
    Bounded maxCached path t ↔ s.databases.length ≤ maxCached ∨ OthersBusy path s := by
  unfold Bounded OthersBusy
  rw [hdatabases]
  refine or_congr_right (forall₂_congr fun d hd => ?_)
  exact forall_congr' fun hpath => hbusy d hd hpath

/-- The part of a call after `get_database` keeps the cache and touches one instance. -/
theorem connectInstance_spec (h : Inv s) {a : Arc} (ha : a < s.next) :
    Inv (connectInstance env a s).2 ∧ (connectInstance env a s).2.databases = s.databases ∧
      ∀ b, b ≠ a → (Busy (connectInstance env a s).2 b ↔ Busy s b) := by
  have hout : ∀ b, b ≠ a → (b ∈ a :: s.connections ↔ b ∈ s.connections) := by
    intro b hb
    rw [List.mem_cons]
    exact or_iff_right hb
  unfold connectInstance
  dsimp only
  split
  · rw [handOut_setCached]
    have hinv : Inv ((handOut a (s.acquire a)).setCached a false) :=
      (h.acquire ha).modify a fun _ => rfl
    exact ⟨hinv, rfl, hout⟩
  · split
    · rw [acquire_release]
      exact ⟨h, rfl, fun _ _ => Iff.rfl⟩
    · rw [acquire_release]
      exact ⟨h, rfl, fun _ _ => Iff.rfl⟩
    · exact ⟨h.acquire ha, rfl, hout⟩

/-- How `get_database` ends. -/
theorem getDatabase_cases :
    (¬ Caches root env dbPath s ∧ ∃ e, getDatabase maxCached root env dbPath s = (.error e, s)) ∨
    (¬ Caches root env dbPath s ∧ ∃ a, s.databases.lookup (fullPath root dbPath) = some a ∧
      getDatabase maxCached root env dbPath s = (.ok a, s.touch a env.now)) ∨
    (Caches root env dbPath s ∧ getDatabase maxCached root env dbPath s =
      (.ok s.next, insert maxCached env (fullPath root dbPath) s)) := by
  unfold getDatabase Caches
  cases hpresent : env.present with
  | false => exact .inl ⟨by simp, _, rfl⟩
  | true =>
    cases hlookup : s.databases.lookup (fullPath root dbPath) with
    | some a => exact .inr (.inl ⟨by simp, a, rfl, by simp [hlookup]⟩)
    | none =>
      cases hbuild : env.build with
      | some e => exact .inl ⟨by simp, .db e, by simp [hlookup]⟩
      | none =>
        cases hconfigure : env.configure with
        | some e => exact .inl ⟨by simp, .db e, by simp [hlookup]⟩
        | none => exact .inr (.inr ⟨by simp, by simp [hlookup]⟩)

/-- **One call**: it keeps the invariant, evicts in the order of the last accesses, and respects the
bound exactly when it is none of the two that break it. -/
theorem getConnection_spec (h : Inv s) :
    Inv (getConnection maxCached root env dbPath s).2 ∧
      EvictsOldest s (getConnection maxCached root env dbPath s).2 ∧
      (Bounded maxCached (fullPath root dbPath) (getConnection maxCached root env dbPath s).2 ↔
        Meets maxCached root env dbPath s) := by
  have hkeeps : ∀ t : State, t.databases = s.databases → EvictsOldest s t :=
    fun t ht d hd hgone => absurd (ht ▸ hd) hgone
  unfold getConnection Meets
  rcases getDatabase_cases maxCached root dbPath env (s := s) with
    ⟨hno, e, hget⟩ | ⟨hno, a, hlookup, hget⟩ | ⟨hyes, hget⟩
  · -- the database could not be built: nothing is cached
    rw [hget, if_neg hno]
    exact ⟨h, hkeeps s rfl, bounded_same maxCached rfl fun _ _ _ => Iff.rfl⟩
  · -- the path is cached: its clock is set and its connection taken
    rw [hget, if_neg hno]
    have hmem : (fullPath root dbPath, a) ∈ s.databases := by
      obtain ⟨before, after, hsplit, -⟩ := List.lookup_eq_some_iff.mp hlookup
      rw [hsplit]
      exact List.mem_append_right _ List.mem_cons_self
    have htouched : Inv (s.touch a env.now) := h.modify a fun _ => rfl
    obtain ⟨hinv, hdatabases, hbusy⟩ :=
      connectInstance_spec env htouched (h.cached_lt _ hmem)
    refine ⟨hinv, hkeeps _ hdatabases, bounded_same maxCached hdatabases fun d hd hpath => hbusy d.2 ?_⟩
    exact fun harc => hpath (congrArg Prod.fst (h.arc_inj hd hmem harc))
  · -- a new instance is cached, after the eviction
    rw [hget, if_pos hyes]
    have hinserted : Inv (insert maxCached env (fullPath root dbPath) s) :=
      h.insert maxCached env hyes.2.1
    have hnext : s.next < (insert maxCached env (fullPath root dbPath) s).next := by
      rw [insert_eq]
      exact Nat.lt_succ_self _
    obtain ⟨hinv, hdatabases, hbusy⟩ := connectInstance_spec env hinserted hnext
    rw [insert_eq] at hdatabases hbusy
    rw [insert_eq] at hinv
    rw [insert_eq]
    refine ⟨hinv, ?_, h.bounded_insert maxCached env hyes.2.1 hdatabases hbusy⟩
    refine h.evictsOldest maxCached env.order fun d hd => ?_
    have hold : d ≠ (fullPath root dbPath, s.next) := by
      rintro rfl
      exact Nat.lt_irrefl _ (h.cached_lt _ hd)
    show d ∈ (connectInstance env s.next _).2.databases ↔ _
    rw [hdatabases, List.mem_append, List.mem_singleton, or_iff_left hold, left_eq]

/-- A dropped connection keeps the invariant. -/
theorem Inv.drop (h : Inv s) (position : Nat) : Inv (drop position s) := by
  unfold Pool.drop
  split
  · exact h
  · rename_i a hat
    obtain ⟨hlt, hget⟩ := List.getElem?_eq_some_iff.mp hat
    have hsub : (s.connections.eraseIdx position).Sublist s.connections := List.eraseIdx_sublist _ _
    refine ⟨h.paths, h.arcs, h.cached_lt, fun b hb => h.connected_lt b (hsub.subset hb), ?_⟩
    intro b hb
    have hcount : s.connections.count b = (a :: s.connections.eraseIdx position).count b := by
      rw [← hget]
      exact ((List.getElem_cons_eraseIdx_perm hlt).count_eq b).symm
    show (Function.update (Function.update s.instances a _) a _ b).activeConnections =
      (s.connections.eraseIdx position).count b
    rcases eq_or_ne b a with rfl | hne
    · rw [List.count_cons_self] at hcount
      rw [Function.update_self]
      show (Function.update s.instances b _ b).activeConnections - 1 = _
      rw [Function.update_self]
      show (s.instances b).activeConnections - 1 = _
      rw [h.counts b hb, hcount, Nat.add_sub_cancel]
    · rw [List.count_cons_of_ne hne.symm] at hcount
      rw [Function.update_of_ne hne, Function.update_of_ne hne, h.counts b hb, hcount]

end Calls

/-! ## Runs -/

theorem Inv.step {s : State} (h : Inv s) (maxCached : Nat) (root : Path) (e : Event) :
    Inv (step maxCached root e s) := by
  cases e with
  | getConnection env dbPath => exact (getConnection_spec maxCached root dbPath env h).1
  | drop position => exact h.drop position

/-- Every state of a run satisfies the invariant. -/
theorem Inv.run {s : State} (h : Inv s) (maxCached : Nat) (root : Path) (es : List Event) :
    ∀ x ∈ Run maxCached root s es, Inv x.1 := by
  induction es generalizing s with
  | nil => exact fun x hx => absurd hx List.not_mem_nil
  | cons e es ih =>
    rintro x (_ | ⟨_, hx⟩)
    · exact h
    · exact ih (h.step maxCached root e) x hx

/-- **In every sequence of calls and drops**, the bound holds after each call and the evictions
follow the order of the last accesses, if and only if no call is one of the two that break the
bound. -/
theorem pool_bound_iff (maxCached : Nat) (root : Path) (es : List Event) :
    (∀ x ∈ Run maxCached root .empty es, ∀ env dbPath, x.2 = .getConnection env dbPath →
      Bounded maxCached (fullPath root dbPath) (step maxCached root x.2 x.1) ∧
        EvictsOldest x.1 (step maxCached root x.2 x.1)) ↔
    ∀ x ∈ Run maxCached root .empty es, ∀ env dbPath, x.2 = .getConnection env dbPath →
      Meets maxCached root env dbPath x.1 := by
  refine forall₂_congr fun x hx => forall₂_congr fun env dbPath => forall_congr' fun hcall => ?_
  obtain ⟨-, holdest, hbound⟩ :=
    getConnection_spec maxCached root dbPath env
      (inv_empty.run maxCached root es x hx)
  rw [hcall]
  exact (and_iff_left holdest).trans hbound

/-- One call and the drop of its connection. -/
def visit (name : Text) : List Event := [.getConnection {} ⟨false, [name]⟩, .drop 0]

/-- `max_cached_databases` calls for different databases, each connection dropped at once. -/
def fillPool : List Event := (List.range 50).flatMap fun i => visit (List.replicate i 'a')

theorem mem_run_last (maxCached : Nat) (root : Path) (es : List Event) (e : Event) (s : State) :
    (es.foldl (fun s e => step maxCached root e s) s, e) ∈ Run maxCached root s (es ++ [e]) := by
  induction es generalizing s with
  | nil => exact List.mem_cons_self
  | cons e' es ih => exact List.mem_cons_of_mem _ (ih _)

/-- **One more database** than the cache may hold, and none of the cached ones busy: afterwards the
cache is above its bound. -/
theorem not_bounded_oneMore :
    ¬ ∀ x ∈ Run 50 ⟨true, []⟩ .empty (fillPool ++ [Event.getConnection {} ⟨false, [['b']]⟩]),
      ∀ env dbPath, x.2 = Event.getConnection env dbPath →
        Bounded 50 (fullPath ⟨true, []⟩ dbPath) (step 50 ⟨true, []⟩ x.2 x.1) := by
  intro h
  have hlast := h _ (mem_run_last _ _ _ _ _) {} ⟨false, [['b']]⟩ rfl
  rcases hlast with hlen | hbusy
  · revert hlen
    decide +kernel
  · have hfirst := hbusy (⟨true, [[]]⟩, 0)
    revert hfirst
    unfold Busy
    decide +kernel

end Events.Pool
