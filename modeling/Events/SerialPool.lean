import Mathlib.Logic.Relation
import Events.SharedPool

/-!
# The shared pool, one call at a time

`Events.Pool` has `get_connection` and the drop of what it returns in one piece each, and
`Events.SharedPool` access by access. Where every call and every drop ends before the next one begins,
the two do the same.

* **`poolOf`** — the shared cache, as `Events.Pool` has it.
* **`Alone`** — the turns of a caller for whom the locks are free; `Alone.steps` makes them steps of the
  pool while the others rest.
* **`alone_getDatabase`**, **`alone_connectInstance`** — the two parts of a call. The loops of the eviction
  are by induction on what they have left.
* **`Represents`** — a state of `Events.Pool` stands for one of the shared pool between two calls;
  `exists_steps` says that every sequence of calls and drops is a run of the shared pool.
-/

namespace Events.SharedPool

open Pool (Path Arc Instant Candidate IterOrder accessLe fullPath remove CallEnv evictLoop)
open Relation (ReflTransGen)

/-- The cache, and the connections that are out. -/
def poolOf (s : Shared) (connections : List Arc) : Pool.State where
  databases := s.databases
  instances a :=
    ⟨s.lastAccess a, (s.instances a).activeConnections, (s.instances a).cachedConnection.isSome⟩
  next := s.next
  connections := connections

/-- The choices of a call, for each of its turns; its drop gets the lock that it tries. -/
def turnEnv (env : CallEnv) : TurnEnv where
  present := env.present
  now := env.now
  build := env.build
  configure := env.configure
  order := env.order
  connection := { connect := env.connect.isNone, configure := env.configureConnection.isNone }

/-- Between two calls no instance is locked; those in the cache have been made, and the others are as
new ones. -/
structure Settled (s : Shared) : Prop where
  free : ∀ a, (s.instances a).lock = none
  made : ∀ d ∈ s.databases, d.2 < s.next
  unmade : ∀ a, s.next ≤ a → s.instances a = PooledConnections.State.new.inst

/-- Where a call stands when its `get_database` has ended. -/
def afterGetDatabase : Except EsError Arc → Stage
  | .ok a => .connecting a .called
  | .error e => .failed e

/-- The turns of a caller that has the cache to itself. -/
def Alone (maxCached i : Nat) (env : TurnEnv) (path : Path) : Shared × Stage → Shared × Stage → Prop :=
  ReflTransGen fun x y => turn maxCached i env true true path x.1 x.2 = some y

/-- The turns of a caller on an instance that nobody else locks. -/
def AloneOn (i : Nat) (env : PooledConnections.TurnEnv) :
    PooledConnections.Instance × PooledConnections.Stage →
      PooledConnections.Instance × PooledConnections.Stage → Prop :=
  ReflTransGen fun x y => PooledConnections.turn i env x.1 x.2 = some y

section Alone

variable {maxCached i : Nat} {env : TurnEnv} {path : Path} {s : Shared} {a : Arc} {connections : List Arc}
  {inst : PooledConnections.Instance}

theorem setInstance_self (s : Shared) (a : Arc) : s.setInstance a (s.instances a) = s := by
  unfold Shared.setInstance
  rw [Function.update_eq_self]

theorem setInstance_setInstance (s : Shared) (a : Arc) (inst inst' : PooledConnections.Instance) :
    (s.setInstance a inst).setInstance a inst' = s.setInstance a inst' := by
  unfold Shared.setInstance
  rw [Function.update_idem]

theorem instances_setInstance (s : Shared) (a : Arc) (inst : PooledConnections.Instance) :
    (s.setInstance a inst).instances a = inst := Function.update_self ..

/-- A lock that was free is free again. -/
theorem lock_unlock (hfree : (s.instances a).lock = none) : (s.lock a).unlock a = s := by
  have hinst : { (s.lock a).instances a with lock := none } = s.instances a := by
    rw [show (s.lock a).instances a = _ from instances_setInstance s a _, ← hfree]
  unfold Shared.unlock
  rw [hinst]
  unfold Shared.lock
  rw [setInstance_setInstance, setInstance_self]

theorem poolOf_setInstance : poolOf (s.setInstance a inst) connections =
    (poolOf s connections).modify a fun _ =>
      ⟨s.lastAccess a, inst.activeConnections, inst.cachedConnection.isSome⟩ := by
  unfold poolOf Pool.State.modify
  congr 1
  funext b
  by_cases hb : b = a
  · subst hb
    simp [Shared.setInstance]
  · simp [Shared.setInstance, Function.update_of_ne hb]

theorem modify_modify (p : Pool.State) (a : Arc) (f g : Pool.DatabaseInstance → Pool.DatabaseInstance) :
    (p.modify a f).modify a g = p.modify a fun inst => g (f inst) := by
  unfold Pool.State.modify
  simp

theorem modify_congr {p : Pool.State} {f g : Pool.DatabaseInstance → Pool.DatabaseInstance}
    (h : f (p.instances a) = g (p.instances a)) : p.modify a f = p.modify a g := by
  unfold Pool.State.modify
  rw [h]

theorem modify_self {p : Pool.State} {f : Pool.DatabaseInstance → Pool.DatabaseInstance}
    (h : f (p.instances a) = p.instances a) : p.modify a f = p := by
  unfold Pool.State.modify
  rw [h, Function.update_eq_self]

/-! ## The turns on an instance -/

/-- The turns on an instance, among those of the call. -/
theorem AloneOn.lift {x y : PooledConnections.Instance × PooledConnections.Stage}
    (h : AloneOn i env.connection x y) :
    Alone maxCached i env path (s.setInstance a x.1, .connecting a x.2)
      (s.setInstance a y.1, .connecting a y.2) := by
  refine ReflTransGen.lift
    (fun x : PooledConnections.Instance × PooledConnections.Stage =>
      (s.setInstance a x.1, Stage.connecting a x.2)) ?_ x y h
  intro x y hxy
  show (PooledConnections.turn i env.connection ((s.setInstance a x.1).instances a) x.2).map _ = _
  rw [instances_setInstance, hxy]
  exact congrArg (fun pool => some (pool, Stage.connecting a y.2)) (setInstance_setInstance s a x.1 y.1)

/-- A call that is alone on an instance counts itself, and has it locked then. -/
theorem aloneOn_counted (i : Nat) (env : PooledConnections.TurnEnv) (hfree : inst.lock = none) :
    AloneOn i env (inst, .called) ({ inst with
      activeConnections := inst.activeConnections + 1
      lock := some (.caller i) }, .counted) := by
  have hcalled : PooledConnections.turn i env inst .called =
      some ({ inst with lock := some (.caller i) }, .cloning) := if_pos hfree
  have hcloning : PooledConnections.turn i env { inst with lock := some (.caller i) } .cloning =
      some ({ inst with lock := none }, .waiting) := rfl
  have hwaiting : PooledConnections.turn i env { inst with lock := none } .waiting =
      some ({ inst with lock := some (.caller i) }, .locked) := rfl
  exact .head hcalled (.head hcloning (.head hwaiting (.single rfl)))

/-- It takes the connection that is kept, or makes one; where it fails it has counted itself out. -/
theorem aloneOn_called (i : Nat) (env : PooledConnections.TurnEnv) (hfree : inst.lock = none) :
    ∃ inst' stage, AloneOn i env (inst, .called) (inst', stage) ∧ inst'.lock = none ∧
      inst'.cachedConnection = none ∧
      if inst.cachedConnection.isSome = true ∨ env.connect = true ∧ env.configure = true then
        (∃ conn, stage = .live conn) ∧ inst'.activeConnections = inst.activeConnections + 1
      else stage = .done ∧ inst'.activeConnections = inst.activeConnections := by
  have hcounted := aloneOn_counted i env hfree
  have hcount : PooledConnections.fetchSub (inst.activeConnections + 1) = inst.activeConnections := rfl
  obtain ⟨cached, active, lock, next⟩ := inst
  cases cached with
  -- taken from the slot, and the lock is left
  | some conn =>
    refine ⟨⟨none, active + 1, none, next⟩, .live conn, ?_, rfl, rfl, ?_⟩
    · exact (hcounted.tail rfl).tail rfl
    · rw [if_pos (.inl rfl)]
      exact ⟨⟨conn, rfl⟩, rfl⟩
  | none =>
    cases hconnect : env.connect with
    -- `connect` fails under the lock
    | false =>
      refine ⟨⟨none, active, none, next⟩, .done, ?_, rfl, rfl, ?_⟩
      · refine ((hcounted.tail (c := (⟨none, active + 1, some (.caller i), next⟩, .refused)) ?_).tail
          rfl).tail rfl
        simp only [PooledConnections.turn, hconnect]
        rfl
      · rw [if_neg (by simp)]
        exact ⟨rfl, rfl⟩
    | true =>
      -- `configure_connection` comes behind the lock
      have hmade : PooledConnections.turn i env ⟨none, active + 1, some (.caller i), next⟩ .counted =
          some (⟨none, active + 1, some (.caller i), next + 1⟩, .connected next false) := by
        simp only [PooledConnections.turn, hconnect]
        rfl
      have hconfiguring := (hcounted.tail hmade).tail (c := (⟨none, active + 1, none, next + 1⟩,
        .configuring next)) rfl
      cases hconfigure : env.configure with
      | false =>
        refine ⟨⟨none, active, none, next + 1⟩, .done, ?_, rfl, rfl, ?_⟩
        · refine (hconfiguring.tail (c := (⟨none, active + 1, none, next + 1⟩, .misconfigured next)) ?_).tail
            rfl
          simp only [PooledConnections.turn, hconfigure]
          rfl
        · rw [if_neg (by simp)]
          exact ⟨rfl, rfl⟩
      | true =>
        refine ⟨⟨none, active + 1, none, next + 1⟩, .live next, ?_, rfl, rfl, ?_⟩
        · refine hconfiguring.tail ?_
          simp only [PooledConnections.turn, hconfigure]
          rfl
        · rw [if_pos (.inr ⟨rfl, rfl⟩)]
          exact ⟨⟨next, rfl⟩, rfl⟩

/-- A drop that gets the lock keeps the connection, and counts itself out. -/
theorem aloneOn_live (i : Nat) {env : PooledConnections.TurnEnv} (conn : PooledConnections.Conn)
    (hfree : inst.lock = none) (htry : env.tryLock = true) :
    AloneOn i env (inst, .live conn) ({ inst with
      cachedConnection := some conn
      activeConnections := inst.activeConnections - 1
      lock := none }, .done) := by
  have hlocked : PooledConnections.turn i env inst (.dropping conn) =
      some ({ inst with lock := some (.caller i) }, .returning conn) := if_pos ⟨hfree, htry⟩
  exact .head rfl (.head hlocked (.head rfl (.head rfl (.single rfl))))

/-! ## The turns through the cache -/

/-- The first loop of the eviction leaves everything as it is. -/
theorem alone_collecting (hfree : ∀ a, (s.instances a).lock = none) (databases : List (Path × Arc))
    (instances : List Candidate) :
    Alone maxCached i env path (s, .collecting a databases instances)
      (s, .collecting a [] (instances ++ databases.map fun d => ⟨d.1, d.2, s.lastAccess d.2⟩)) := by
  induction databases generalizing instances with
  | nil =>
    rw [List.map_nil, List.append_nil]
    exact .refl
  | cons d databases ih =>
    have hlock : turn maxCached i env true true path s (.collecting a (d :: databases) instances) =
        some (s.lock d.2, .reading a d databases instances) := if_pos (hfree d.2)
    have hread : turn maxCached i env true true path (s.lock d.2) (.reading a d databases instances) =
        some (s, .collecting a databases (instances ++ [⟨d.1, d.2, s.lastAccess d.2⟩])) := by
      show some ((s.lock d.2).unlock d.2, _) = _
      rw [lock_unlock (hfree d.2)]
      rfl
    have hrest := ih (instances ++ [⟨d.1, d.2, s.lastAccess d.2⟩])
    rw [List.append_assoc, List.singleton_append] at hrest
    exact .head hlock (.head hread hrest)

/-- The second loop removes what `evictLoop` removes. -/
theorem alone_evicting (hfree : ∀ a, (s.instances a).lock = none) (instances : List Candidate)
    (evicted targetEvictions : Nat) (known : Arc → Pool.DatabaseInstance)
    (hknown : ∀ a, (known a).activeConnections = (s.instances a).activeConnections) :
    Alone maxCached i env path (s, .evicting a instances evicted targetEvictions)
      ({ s with databases := evictLoop known targetEvictions instances evicted s.databases },
        .caching a) := by
  induction instances generalizing s evicted with
  | nil => exact .single rfl
  | cons c instances ih =>
    by_cases henough : evicted ≥ targetEvictions
    · refine .single ?_
      simp only [turn, evictLoop, if_pos henough]
    · have hlock : turn maxCached i env true true path s
          (.evicting a (c :: instances) evicted targetEvictions) =
            some (s.lock c.arc, .testing a c instances evicted targetEvictions) := by
        simp only [turn, if_neg henough, if_pos (hfree c.arc)]
      -- locking leaves the counter alone
      have hactive : ((s.lock c.arc).instances c.arc).activeConnections =
          (s.instances c.arc).activeConnections := by
        rw [show (s.lock c.arc).instances c.arc = _ from instances_setInstance s c.arc _]
      refine .head hlock ?_
      rw [evictLoop, if_neg henough, hknown]
      by_cases hidle : (s.instances c.arc).activeConnections = 0
      · rw [if_pos hidle]
        refine .head (b := (s.evict c.path, _)) ?_ (ih (s := s.evict c.path) hfree (evicted + 1) hknown)
        simp only [turn, hactive, if_pos hidle]
        exact congrArg (fun pool => some (Shared.evict pool c.path,
          Stage.evicting a instances (evicted + 1) targetEvictions)) (lock_unlock (hfree c.arc))
      · rw [if_neg hidle]
        refine .head (b := (s, _)) ?_ (ih hfree evicted hknown)
        simp only [turn, hactive, if_neg hidle, lock_unlock (hfree c.arc)]

/-- The instances of the cache, with the time of their last access, are not the new one. -/
theorem candidates_build (hmade : ∀ d ∈ s.databases, d.2 < s.next) (order : IterOrder) (now : Instant)
    (connections : List Arc) :
    ((order.list s.databases).map fun d =>
        (⟨d.1, d.2, (s.build path now).lastAccess d.2⟩ : Candidate)).insertionSort accessLe =
      Pool.candidates (poolOf s connections).instances order s.databases := by
  unfold Pool.candidates
  congr 1
  refine List.map_congr_left fun d hd => ?_
  have hne : d.2 ≠ s.next := (hmade d ((order.perm _).mem_iff.1 hd)).ne
  show (⟨d.1, d.2, Function.update s.lastAccess s.next now d.2⟩ : Candidate) = _
  rw [Function.update_of_ne hne]
  rfl

theorem remove_of_notMem {databases : List (Path × Arc)} (h : ∀ d ∈ databases, d.1 ≠ path) :
    remove path databases = databases :=
  List.filter_eq_self.2 fun d hd => decide_eq_true (h d hd)

/-- The writer of the cache makes room. -/
theorem alone_checking (hs : Settled s) (env : CallEnv) (a : Arc) :
    Alone maxCached i (turnEnv env) path (s.build path env.now, .checking a)
      ({ s.build path env.now with databases := Pool.left maxCached env (poolOf s connections) },
        .caching a) := by
  by_cases hfull : s.databases.length ≥ maxCached
  · -- `evict_old_databases` returns at once from a cache that is exactly full
    by_cases hroom : s.databases.length ≤ maxCached
    · rw [Pool.left_eq, Pool.evictOldDatabases_of_le hroom]
      exact .single ((if_pos hfull).trans (if_pos hroom))
    · have hchecking : turn maxCached i (turnEnv env) true true path (s.build path env.now) (.checking a) =
          some (s.build path env.now, .collecting a (env.order.list s.databases) []) :=
        (if_pos hfull).trans (if_neg hroom)
      have hfree : ∀ b, ((s.build path env.now).instances b).lock = none := hs.free
      have hcollect : Alone maxCached i (turnEnv env) path
          (s.build path env.now, .collecting a (env.order.list s.databases) [])
          (s.build path env.now, .collecting a [] ([] ++ (env.order.list s.databases).map fun d =>
            ⟨d.1, d.2, (s.build path env.now).lastAccess d.2⟩)) := alone_collecting hfree _ []
      have hevict : Alone maxCached i (turnEnv env) path
          (s.build path env.now, .evicting a
            (((env.order.list s.databases).map fun d =>
              ⟨d.1, d.2, (s.build path env.now).lastAccess d.2⟩).insertionSort accessLe) 0
            (s.databases.length - maxCached + 1)) (_, .caching a) :=
        alone_evicting hfree _ 0 _ (poolOf s connections).instances fun _ => rfl
      have hleft : Pool.left maxCached env (poolOf s connections) = evictLoop (poolOf s connections).instances
          (s.databases.length - maxCached + 1)
          (((env.order.list s.databases).map fun d =>
            ⟨d.1, d.2, (s.build path env.now).lastAccess d.2⟩).insertionSort accessLe) 0 s.databases := by
        rw [Pool.left_eq, candidates_build hs.made env.order env.now connections]
        exact congrArg Pool.State.databases (if_neg hroom)
      -- read the candidates under their locks, sort them, remove from the oldest on
      rw [hleft]
      exact .head hchecking (hcollect.trans (.head rfl hevict))
  · have hleft : Pool.left maxCached env (poolOf s connections) = s.databases := if_neg hfull
    rw [hleft]
    exact .single (if_neg hfull)

/-- A call that has made its instance caches it, when it has made room. -/
theorem alone_inserting (hs : Settled s) (hnew : s.databases.lookup path = none) (env : CallEnv)
    (connections : List Arc) :
    ∃ s', Alone maxCached i (turnEnv env) path (s.build path env.now, .inserting s.next)
        (s', .connecting s.next .called) ∧
      poolOf s' connections = Pool.insert maxCached env path (poolOf s connections) ∧ Settled s' := by
  have hsub : (Pool.left maxCached env (poolOf s connections)).Sublist s.databases :=
    Pool.left_sublist maxCached env
  -- the path is not cached, so the insertion replaces nothing
  have hkeep : remove path (Pool.left maxCached env (poolOf s connections)) =
      Pool.left maxCached env (poolOf s connections) :=
    remove_of_notMem fun d hd =>
      (Pool.lookup_none_iff (s := poolOf s connections)).1 hnew d (hsub.mem hd)
  refine ⟨Shared.insert { s.build path env.now with
    databases := Pool.left maxCached env (poolOf s connections) } path s.next, ?_, ?_, ?_⟩
  · have hwrite : turn maxCached i (turnEnv env) true true path (s.build path env.now)
        (.inserting s.next) = some (s.build path env.now, .checking s.next) := rfl
    exact .head hwrite (((alone_checking hs env s.next).tail rfl).tail rfl)
  · -- the instance of the new address is the one that `Pool.insert` makes
    rw [Pool.insert_eq]
    unfold poolOf Shared.insert
    congr 1
    · exact congrArg (· ++ [(path, s.next)]) hkeep
    · funext b
      by_cases hb : b = s.next
      · subst hb
        simp [Shared.build, hs.unmade s.next le_rfl, PooledConnections.State.new]
      · simp [Shared.build, Function.update_of_ne hb]
  · refine ⟨hs.free, fun d hd => ?_, fun b hb => hs.unmade b (Nat.le_of_succ_le hb)⟩
    have hd : d ∈ remove path (Pool.left maxCached env (poolOf s connections)) ++ [(path, s.next)] := hd
    rw [hkeep, List.mem_append, List.mem_singleton] at hd
    rcases hd with hd | rfl
    · exact (hs.made d (hsub.mem hd)).trans (Nat.lt_succ_self s.next)
    · exact Nat.lt_succ_self s.next

/-- A hit keeps the time of the access. -/
theorem alone_touching (hs : Settled s) (env : CallEnv) (a : Arc) (connections : List Arc) :
    ∃ s', Alone maxCached i (turnEnv env) path (s, .touching a) (s', .connecting a .called) ∧
      poolOf s' connections = (poolOf s connections).touch a env.now ∧ Settled s' := by
  refine ⟨s.touch a env.now, ?_, ?_, hs.free, hs.made, hs.unmade⟩
  · have hlock : turn maxCached i (turnEnv env) true true path s (.touching a) =
        some (s.lock a, .stamping a) := if_pos (hs.free a)
    have hunlock : ((s.lock a).touch a env.now).unlock a = s.touch a env.now :=
      congrArg (fun pool => Shared.touch pool a env.now) (lock_unlock (hs.free a))
    have hstamp : turn maxCached i (turnEnv env) true true path (s.lock a) (.stamping a) =
        some (s.touch a env.now, .found a) := congrArg (fun pool => some (pool, Stage.found a)) hunlock
    exact .head hlock (.head hstamp (.single rfl))
  · unfold poolOf Pool.State.touch Pool.State.modify Shared.touch
    congr 1
    funext b
    by_cases hb : b = a
    · subst hb
      simp
    · simp [Function.update_of_ne hb]

/-- **`get_database`, alone**, does what it does in one piece. -/
theorem alone_getDatabase (hs : Settled s) (root dbPath : Path) (env : CallEnv) (connections : List Arc) :
    ∃ s', Alone maxCached i (turnEnv env) (fullPath root dbPath) (s, .called)
        (s', afterGetDatabase (Pool.getDatabase maxCached root env dbPath (poolOf s connections)).1) ∧
      poolOf s' connections = (Pool.getDatabase maxCached root env dbPath (poolOf s connections)).2 ∧
      Settled s' := by
  cases hpresent : env.present with
  | false =>
    have hget : Pool.getDatabase maxCached root env dbPath (poolOf s connections) = _ := if_pos hpresent
    have hcalled : turn maxCached i (turnEnv env) true true (fullPath root dbPath) s .called = some (s,
        .failed (.invalidPath
          s!"Database file does not exist: \"{String.ofList (fullPath root dbPath).toText}\"")) :=
      if_neg (by rw [turnEnv, hpresent]; exact Bool.false_ne_true)
    rw [hget]
    exact ⟨s, .single hcalled, rfl, hs⟩
  | true =>
    have hcalled : turn maxCached i (turnEnv env) true true (fullPath root dbPath) s .called =
        some (s, .looking) := if_pos hpresent
    have hlooking : turn maxCached i (turnEnv env) true true (fullPath root dbPath) s .looking =
        some (s, .searching) := rfl
    -- the look in the cache is the same
    have hpool : (poolOf s connections).databases.lookup (fullPath root dbPath) =
        s.databases.lookup (fullPath root dbPath) := rfl
    cases hlookup : s.databases.lookup (fullPath root dbPath) with
    | some a =>
      have hget : Pool.getDatabase maxCached root env dbPath (poolOf s connections) =
          (.ok a, (poolOf s connections).touch a env.now) := by
        simp [Pool.getDatabase, hpresent, hpool, hlookup]
      have hsearching : turn maxCached i (turnEnv env) true true (fullPath root dbPath) s .searching =
          some (s, .touching a) := by
        simp only [turn, hlookup]
      obtain ⟨s', htouch, hsame, hs'⟩ := alone_touching hs env a connections
      rw [hget]
      exact ⟨s', .head hcalled (.head hlooking (.head hsearching htouch)), hsame, hs'⟩
    | none =>
      have hsearching : turn maxCached i (turnEnv env) true true (fullPath root dbPath) s .searching =
          some (s, .building) := by
        simp only [turn, hlookup]
      -- the new instance, or the first of the two failures
      cases hbuild : env.build with
      | some e =>
        have hget : Pool.getDatabase maxCached root env dbPath (poolOf s connections) =
            (.error (.db e), poolOf s connections) := by
          simp [Pool.getDatabase, hpresent, hpool, hlookup, hbuild]
        have hbuilding : turn maxCached i (turnEnv env) true true (fullPath root dbPath) s .building =
            some (s, .failed (.db e)) := by
          simp only [turn, turnEnv, hbuild]
        rw [hget]
        exact ⟨s, .head hcalled (.head hlooking (.head hsearching (.single hbuilding))), rfl, hs⟩
      | none =>
        cases hconfigure : env.configure with
        | some e =>
          have hget : Pool.getDatabase maxCached root env dbPath (poolOf s connections) =
              (.error (.db e), poolOf s connections) := by
            simp [Pool.getDatabase, hpresent, hpool, hlookup, hbuild, hconfigure]
          have hbuilding : turn maxCached i (turnEnv env) true true (fullPath root dbPath) s .building =
              some (s, .failed (.db e)) := by
            simp only [turn, turnEnv, hbuild, hconfigure]
          rw [hget]
          exact ⟨s, .head hcalled (.head hlooking (.head hsearching (.single hbuilding))), rfl, hs⟩
        | none =>
          have hget : Pool.getDatabase maxCached root env dbPath (poolOf s connections) =
              (.ok s.next, Pool.insert maxCached env (fullPath root dbPath) (poolOf s connections)) := by
            simp [Pool.getDatabase, hpresent, hpool, hlookup, hbuild, hconfigure]
            rfl
          have hbuilding : turn maxCached i (turnEnv env) true true (fullPath root dbPath) s .building =
              some (s.build (fullPath root dbPath) env.now, .inserting s.next) := by
            simp only [turn, turnEnv, hbuild, hconfigure]
          obtain ⟨s', hinsert, hsame, hs'⟩ := alone_inserting hs hlookup env connections
          rw [hget]
          exact ⟨s', .head hcalled (.head hlooking (.head hsearching (.head hbuilding hinsert))), hsame, hs'⟩

/-- A caller that has run on an instance, and what the pool sees of it. -/
theorem settled_setInstance (hs : Settled s) (ha : a < s.next) (hlock : inst.lock = none) :
    Settled (s.setInstance a inst) where
  free b := by
    by_cases hb : b = a
    · rw [hb, instances_setInstance]
      exact hlock
    · rw [show (s.setInstance a inst).instances b = _ from Function.update_of_ne hb ..]
      exact hs.free b
  made := hs.made
  unmade b hb := by
    have hne : b ≠ a := (ha.trans_le hb).ne'
    rw [show (s.setInstance a inst).instances b = _ from Function.update_of_ne hne ..]
    exact hs.unmade b hb

/-- **The rest of `get_connection`, alone**: the connection is handed out, or the counter is as before. -/
theorem alone_connectInstance (hs : Settled s) (ha : a < s.next) (env : CallEnv) (connections : List Arc) :
    ∃ s' stage, Alone maxCached i (turnEnv env) path (s, .connecting a .called)
        (s', .connecting a stage) ∧ Settled s' ∧
      poolOf s' (Pool.connectInstance env a (poolOf s connections)).2.connections =
        (Pool.connectInstance env a (poolOf s connections)).2 ∧
      ((Pool.connectInstance env a (poolOf s connections)).2.connections = a :: connections ∧
          (∃ conn, stage = .live conn) ∨
        (Pool.connectInstance env a (poolOf s connections)).2.connections = connections ∧
          stage = .done) := by
  obtain ⟨inst', stage, hrun, hlock, hnone, hcount⟩ :=
    aloneOn_called i (turnEnv env).connection (hs.free a)
  have halone : Alone maxCached i (turnEnv env) path (s.setInstance a (s.instances a), _) _ := hrun.lift
  rw [setInstance_self] at halone
  refine ⟨s.setInstance a inst', stage, halone, settled_setInstance hs ha hlock, ?_⟩
  have hactive : ((poolOf s connections).acquire a).instances a = ⟨s.lastAccess a,
      (s.instances a).activeConnections + 1, (s.instances a).cachedConnection.isSome⟩ :=
    Function.update_self ..
  have hkept : (((poolOf s connections).acquire a).instances a).cachedConnection =
      (s.instances a).cachedConnection.isSome := by rw [hactive]
  cases hcached : (s.instances a).cachedConnection.isSome with
  -- a kept connection is reused
  | true =>
    have hconnect : Pool.connectInstance env a (poolOf s connections) =
        (.ok a, Pool.handOut a (((poolOf s connections).acquire a).setCached a false)) :=
      if_pos (hkept.trans hcached)
    rw [if_pos (.inl hcached)] at hcount
    obtain ⟨⟨conn, rfl⟩, hcount⟩ := hcount
    rw [hconnect]
    refine ⟨?_, .inl ⟨rfl, conn, rfl⟩⟩
    rw [poolOf_setInstance]
    show (poolOf s (a :: connections)).modify a _ =
      ((poolOf s (a :: connections)).acquire a).setCached a false
    unfold Pool.State.setCached Pool.State.acquire
    rw [modify_modify]
    refine modify_congr ?_
    rw [hcount, hnone]
    rfl
  | false =>
    have hfresh : ¬(((poolOf s connections).acquire a).instances a).cachedConnection = true := by
      rw [hkept, hcached]
      exact Bool.false_ne_true
    by_cases hok : env.connect = none ∧ env.configureConnection = none
    · -- a new connection is made
      have hconnect : Pool.connectInstance env a (poolOf s connections) =
          (.ok a, Pool.handOut a ((poolOf s connections).acquire a)) := by
        simp only [Pool.connectInstance, if_neg hfresh, hok.1, hok.2]
      rw [if_pos (.inr ⟨by rw [turnEnv, hok.1]; rfl, by rw [turnEnv, hok.2]; rfl⟩)] at hcount
      obtain ⟨⟨conn, rfl⟩, hcount⟩ := hcount
      rw [hconnect]
      refine ⟨?_, .inl ⟨rfl, conn, rfl⟩⟩
      rw [poolOf_setInstance]
      show (poolOf s (a :: connections)).modify a _ = (poolOf s (a :: connections)).acquire a
      refine modify_congr ?_
      rw [hcount, hnone]
      show _ = (⟨s.lastAccess a, _, (s.instances a).cachedConnection.isSome⟩ : Pool.DatabaseInstance)
      rw [hcached]
      rfl
    · have hconnect : (Pool.connectInstance env a (poolOf s connections)).2 = poolOf s connections := by
        -- counted in and out again, the instance is as before
        have hreleased := Pool.acquire_release (poolOf s connections) a
        simp only [Pool.connectInstance, if_neg hfresh]
        cases h : env.connect with
        | some e => exact hreleased
        | none =>
          cases h' : env.configureConnection with
          | some e => exact hreleased
          | none => exact absurd ⟨h, h'⟩ hok
      rw [if_neg] at hcount
      · obtain ⟨rfl, hcount⟩ := hcount
        rw [hconnect]
        refine ⟨?_, .inr ⟨rfl, rfl⟩⟩
        rw [poolOf_setInstance]
        refine modify_self ?_
        rw [hcount, hnone]
        show _ = (⟨s.lastAccess a, _, (s.instances a).cachedConnection.isSome⟩ : Pool.DatabaseInstance)
        rw [hcached]
        rfl
      · -- neither of the two ways to a connection
        rintro (h | ⟨h, h'⟩)
        · rw [hcached] at h
          cases h
        · exact hok ⟨Option.isNone_iff_eq_none.1 h, Option.isNone_iff_eq_none.1 h'⟩

/-- **The drop of a connection, alone**: the connection is kept by the instance. -/
theorem alone_drop (hs : Settled s) (ha : a < s.next) {position : Nat} {conn : PooledConnections.Conn}
    (hposition : connections[position]? = some a) (env : CallEnv) :
    ∃ s', Alone maxCached i (turnEnv env) path (s, .connecting a (.live conn)) (s', .connecting a .done) ∧
      Settled s' ∧ poolOf s' (connections.eraseIdx position) =
        Pool.drop position (poolOf s connections) := by
  have hrun : AloneOn i (turnEnv env).connection (s.instances a, .live conn) (_, .done) :=
    aloneOn_live i conn (hs.free a) rfl
  have halone : Alone maxCached i (turnEnv env) path (s.setInstance a (s.instances a), _) _ := hrun.lift
  rw [setInstance_self] at halone
  refine ⟨_, halone, settled_setInstance hs ha rfl, ?_⟩
  have hdrop : Pool.drop position (poolOf s connections) =
      ((poolOf s (connections.eraseIdx position)).setCached a true).release a := by
    unfold Pool.drop
    rw [show (poolOf s connections).connections[position]? = some a from hposition]
    rfl
  rw [hdrop, poolOf_setInstance]
  unfold Pool.State.release Pool.State.setCached
  rw [modify_modify]
  exact modify_congr rfl

end Alone

/-! ## Steps of the pool -/

section Steps

variable {maxCached : Nat} {root : Path} {s : State} {p : Pool.State}

/-- Runs of the shared pool. -/
def Steps (maxCached : Nat) (root : Path) : State → State → Prop :=
  ReflTransGen fun s s' => ∃ e, step maxCached root e s = some s'

/-- Only a caller that is to lock the cache depends on the others. -/
theorem turn_of_alone {i : Nat} {env : TurnEnv} {path : Path} {pool : Shared} {stage : Stage}
    {y : Shared × Stage} {readable writable : Bool}
    (h : turn maxCached i env true true path pool stage = some y)
    (hreadable : stage.writes = false → readable = true)
    (hwritable : stage.reads = false → stage.writes = false → writable = true) :
    turn maxCached i env readable writable path pool stage = some y := by
  cases stage with
  | looking => rw [hreadable rfl]; exact h
  | inserting a => rw [hwritable rfl rfl]; exact h
  | collecting a databases instances => cases databases <;> exact h
  | evicting a instances evicted targetEvictions => cases instances <;> exact h
  | _ => exact h

/-- A caller at rest has not locked the cache. -/
theorem not_locked_of_atRest {stage : Stage} (h : stage.atRest = true) :
    stage.reads = false ∧ stage.writes = false := by
  cases stage <;> first | exact ⟨rfl, rfl⟩ | cases h

/-- **The turns of a caller are steps of the pool** while the others rest. -/
theorem Alone.steps {j : Nat} {c : Caller} {env : TurnEnv} (hc : s.callers[j]? = some c)
    (hhere : c.gone = false)
    (hothers : ∀ (k : Nat) (d : Caller), k ≠ j → s.callers[k]? = some d → d.stage.atRest = true)
    {x y : Shared × Stage} (h : Alone maxCached j env (fullPath root c.dbPath) x y) :
    Steps maxCached root ⟨x.1, s.callers.set j { c with stage := x.2 }⟩
      ⟨y.1, s.callers.set j { c with stage := y.2 }⟩ := by
  obtain ⟨dbPath, stage, gone⟩ := c
  obtain rfl : gone = false := hhere
  refine ReflTransGen.lift
    (fun x : Shared × Stage => (⟨x.1, s.callers.set j ⟨dbPath, x.2, false⟩⟩ : State)) ?_ x y h
  intro x y hxy
  refine ⟨.turn j env, ?_⟩
  -- the callers at rest hold neither the map nor an instance
  have hlocked : ∀ d ∈ s.callers.set j ⟨dbPath, x.2, false⟩, (x.2.writes = false → d.writes = false) ∧
      (x.2.reads = false → x.2.writes = false → d.reads = false ∧ d.writes = false) := by
    intro d hd
    obtain ⟨k, hk⟩ := List.mem_iff_getElem?.1 hd
    rcases mem_set hk with ⟨-, rfl⟩ | ⟨hne, hk⟩
    · exact ⟨id, fun hr hw => ⟨hr, hw⟩⟩
    · obtain ⟨hr, hw⟩ := not_locked_of_atRest (hothers k d hne hk)
      simp [Caller.reads, Caller.writes, hr, hw]
  have hturn : turn maxCached j env (State.readable ⟨x.1, s.callers.set j ⟨dbPath, x.2, false⟩⟩)
      (State.writable ⟨x.1, s.callers.set j ⟨dbPath, x.2, false⟩⟩) (fullPath root dbPath) x.1 x.2 =
        some y := by
    refine turn_of_alone hxy (fun hw => ?_) (fun hr hw => ?_)
    · exact List.all_eq_true.2 fun d hd => by simp [(hlocked d hd).1 hw]
    · refine List.all_eq_true.2 fun d hd => ?_
      obtain ⟨hdr, hdw⟩ := (hlocked d hd).2 hr hw
      simp [hdr, hdw]
  simp only [step, set_self hc, Bool.false_eq_true, if_false, hturn, Option.map_some, List.set_set]

/-- The caller `j` has a `PooledConnection` of the instance `a`. -/
def HasLive (s : State) (j : Nat) (a : Arc) : Prop :=
  ∃ (c : Caller) (conn : PooledConnections.Conn), s.callers[j]? = some c ∧ c.gone = false ∧
    c.stage = .connecting a (.live conn)

/-- Between two calls, `p` is the state of the shared pool: every connection that is out has its caller. -/
structure Represents (p : Pool.State) (s : State) : Prop where
  inv : Pool.Inv p
  pool : poolOf s.pool p.connections = p
  settled : Settled s.pool
  resting : ∀ c ∈ s.callers, c.stage.atRest = true
  users : ∃ users : List Nat, users.Nodup ∧ List.Forall₂ (HasLive s) users p.connections

theorem represents_new : Represents .empty .new where
  inv := Pool.inv_empty
  pool := rfl
  settled := ⟨fun _ => rfl, fun d hd => (by cases hd), fun _ _ => rfl⟩
  resting c hc := by cases hc
  users := ⟨[], List.nodup_nil, .nil⟩

/-- The instance that `get_database` returns has been made. -/
theorem getDatabase_lt (hinv : Pool.Inv p) {dbPath : Path} {env : CallEnv} {a : Arc}
    (h : (Pool.getDatabase maxCached root env dbPath p).1 = .ok a) :
    a < (Pool.getDatabase maxCached root env dbPath p).2.next := by
  rcases Pool.getDatabase_cases maxCached root dbPath env (s := p) with
    ⟨-, e, hget⟩ | ⟨-, b, hlookup, hget⟩ | ⟨-, hget⟩
  · rw [hget] at h
    cases h
  · rw [hget] at h ⊢
    cases h
    obtain ⟨before, after, hsplit, -⟩ := List.lookup_eq_some_iff.1 hlookup
    exact hinv.cached_lt (fullPath root dbPath, a) (hsplit ▸ List.mem_append_right _ List.mem_cons_self)
  · rw [hget] at h ⊢
    cases h
    rw [Pool.insert_eq]
    exact Nat.lt_succ_self _

theorem set_append_call (callers : List Caller) (c c' : Caller) :
    (callers ++ [c]).set callers.length c' = callers ++ [c'] := by
  simp

/-- A new call, and what its turns make of it. -/
theorem steps_call (hresting : ∀ c ∈ s.callers, c.stage.atRest = true) {dbPath : Path} {env : TurnEnv}
    {pool : Shared} {stage : Stage}
    (h : Alone maxCached s.callers.length env (fullPath root dbPath) (s.pool, .called) (pool, stage)) :
    Steps maxCached root s ⟨pool, s.callers ++ [Caller.mk dbPath stage false]⟩ := by
  have hcalled : Steps maxCached root s ⟨s.pool, s.callers ++ [Caller.mk dbPath .called false]⟩ :=
    .single ⟨.call dbPath, rfl⟩
  have hhere : (s.callers ++ [Caller.mk dbPath .called false])[s.callers.length]? =
      some (Caller.mk dbPath .called false) := List.getElem?_concat_length
  have hothers : ∀ (k : Nat) (d : Caller), k ≠ s.callers.length →
      (s.callers ++ [Caller.mk dbPath .called false])[k]? = some d → d.stage.atRest = true := by
    intro k d hne hd
    have hk : k < s.callers.length := by
      obtain ⟨hk, -⟩ := List.getElem?_eq_some_iff.1 hd
      rw [List.length_append, List.length_singleton] at hk
      omega
    rw [List.getElem?_append_left hk] at hd
    exact hresting d (List.mem_of_getElem? hd)
  have hturns : Steps maxCached root
      ⟨s.pool, (s.callers ++ [Caller.mk dbPath .called false]).set s.callers.length
        (Caller.mk dbPath .called false)⟩
      ⟨pool, (s.callers ++ [Caller.mk dbPath .called false]).set s.callers.length
        (Caller.mk dbPath stage false)⟩ :=
    Alone.steps (s := ⟨s.pool, s.callers ++ [Caller.mk dbPath .called false]⟩) hhere rfl hothers h
  rw [set_append_call, set_append_call] at hturns
  exact hcalled.trans hturns

/-- A connection that is out stays out. -/
theorem HasLive.append {j : Nat} {a : Arc} (h : HasLive s j a) (pool : Shared) (c : Caller) :
    HasLive ⟨pool, s.callers ++ [c]⟩ j a := by
  obtain ⟨d, conn, hd, hhere, hstage⟩ := h
  exact ⟨d, conn, of_mem_append hd _, hhere, hstage⟩

theorem HasLive.lt {j : Nat} {a : Arc} (h : HasLive s j a) : j < s.callers.length := by
  obtain ⟨c, conn, hc, -⟩ := h
  exact (List.getElem?_eq_some_iff.1 hc).1

theorem exists_of_forall₂ {α β : Type} {R : α → β → Prop} {l : List α} {l' : List β}
    (h : List.Forall₂ R l l') {x : α} (hx : x ∈ l) : ∃ y, R x y := by
  induction h with
  | nil => cases hx
  | cons hxy _ ih =>
    rcases List.mem_cons.1 hx with rfl | hx
    · exact ⟨_, hxy⟩
    · exact ih hx

/-- The pair at a position, and those at the others. -/
theorem forall₂_eraseIdx {α β : Type} {R : α → β → Prop} {l : List α} {l' : List β}
    (h : List.Forall₂ R l l') {n : Nat} {y : β} (hy : l'[n]? = some y) :
    ∃ x, l[n]? = some x ∧ R x y ∧ List.Forall₂ R (l.eraseIdx n) (l'.eraseIdx n) := by
  induction h generalizing n with
  | nil => cases hy
  | cons hxy hrest ih =>
    cases n with
    | zero =>
      cases hy
      exact ⟨_, rfl, hxy, hrest⟩
    | succ n =>
      obtain ⟨x, hx, hR, hother⟩ := ih hy
      exact ⟨x, hx, hR, .cons hxy hother⟩

/-- A call has ended, with a connection or without one. -/
theorem Represents.ended (h : Represents p s) {p' : Pool.State} {pool : Shared} {c : Caller}
    (hinv : Pool.Inv p') (hpool : poolOf pool p'.connections = p') (hsettled : Settled pool)
    (hrest : c.stage.atRest = true)
    (hconnections : p'.connections = p.connections ∨ ∃ a conn, p'.connections = a :: p.connections ∧
      c.gone = false ∧ c.stage = .connecting a (.live conn)) :
    Represents p' ⟨pool, s.callers ++ [c]⟩ where
  inv := hinv
  pool := hpool
  settled := hsettled
  resting d hd := by
    rcases List.mem_append.1 hd with hd | hd
    · exact h.resting d hd
    · rw [List.mem_singleton.1 hd]
      exact hrest
  users := by
    obtain ⟨users, hnodup, husers⟩ := h.users
    have hkept : List.Forall₂ (HasLive ⟨pool, s.callers ++ [c]⟩) users p.connections :=
      husers.imp fun _ _ hlive => hlive.append pool c
    rcases hconnections with hsame | ⟨a, conn, hnew, hhere, hstage⟩
    · rw [hsame]
      exact ⟨users, hnodup, hkept⟩
    · rw [hnew]
      refine ⟨s.callers.length :: users, List.nodup_cons.2 ⟨fun hmem => ?_, hnodup⟩, .cons ?_ hkept⟩
      · obtain ⟨b, hlive⟩ := exists_of_forall₂ husers hmem
        exact Nat.lt_irrefl _ hlive.lt
      · exact ⟨c, conn, List.getElem?_concat_length, hhere, hstage⟩

/-- **A call of `get_connection`** that ends before anything else begins. -/
theorem Represents.getConnection (h : Represents p s) (maxCached : Nat) (root dbPath : Path)
    (env : CallEnv) : ∃ s', Steps maxCached root s s' ∧
      Represents (Pool.getConnection maxCached root env dbPath p).2 s' := by
  have hinv : Pool.Inv (Pool.getConnection maxCached root env dbPath p).2 :=
    h.inv.step maxCached root (.getConnection env dbPath)
  obtain ⟨pool, hget, hpool, hsettled⟩ : ∃ s', Alone maxCached s.callers.length (turnEnv env)
      (fullPath root dbPath) (s.pool, .called)
        (s', afterGetDatabase (Pool.getDatabase maxCached root env dbPath (poolOf s.pool p.connections)).1) ∧
      poolOf s' p.connections =
        (Pool.getDatabase maxCached root env dbPath (poolOf s.pool p.connections)).2 ∧ Settled s' :=
    alone_getDatabase h.settled root dbPath env p.connections
  rw [h.pool] at hget hpool
  cases hdb : Pool.getDatabase maxCached root env dbPath p with
  | mk r p₁ =>
    have hlt : ∀ a, (Pool.getDatabase maxCached root env dbPath p).1 = .ok a →
        a < (Pool.getDatabase maxCached root env dbPath p).2.next := fun a => getDatabase_lt h.inv
    rw [hdb] at hget hpool hlt
    -- `get_database` hands nothing out
    have hconnections : p₁.connections = p.connections := (congrArg Pool.State.connections hpool).symm
    cases r with
    | error e =>
      have hcall : Pool.getConnection maxCached root env dbPath p = (.error e, p₁) := by
        unfold Pool.getConnection
        rw [hdb]
      rw [hcall] at hinv ⊢
      exact ⟨_, steps_call h.resting hget,
        h.ended hinv (hconnections ▸ hpool) hsettled rfl (.inl hconnections)⟩
    | ok a =>
      have hcall : Pool.getConnection maxCached root env dbPath p = Pool.connectInstance env a p₁ := by
        unfold Pool.getConnection
        rw [hdb]
      have hnext : pool.next = p₁.next := congrArg Pool.State.next hpool
      obtain ⟨pool', stage, hrest, hsettled', hpool', hend⟩ : ∃ s' stage, Alone maxCached s.callers.length
          (turnEnv env) (fullPath root dbPath) (pool, .connecting a .called) (s', .connecting a stage) ∧ _ :=
        alone_connectInstance hsettled (hnext ▸ hlt a rfl) env p.connections
      rw [hpool] at hpool' hend
      rw [hcall] at hinv ⊢
      refine ⟨_, steps_call h.resting (hget.trans hrest), h.ended hinv hpool' hsettled' ?_ ?_⟩
      · rcases hend with ⟨-, conn, rfl⟩ | ⟨-, rfl⟩
        · rfl
        · rfl
      · rcases hend with ⟨hnew, conn, rfl⟩ | ⟨hsame, -⟩
        · exact .inr ⟨a, conn, hnew, rfl, rfl⟩
        · exact .inl hsame

/-- **The drop of a connection** that ends before anything else begins. -/
theorem Represents.drop (h : Represents p s) (maxCached : Nat) (root : Path) (position : Nat) :
    ∃ s', Steps maxCached root s s' ∧ Represents (Pool.drop position p) s' := by
  have hinv := h.inv.drop position
  cases hposition : p.connections[position]? with
  | none =>
    have hdrop : Pool.drop position p = p := by
      unfold Pool.drop
      rw [hposition]
    rw [hdrop]
    exact ⟨s, .refl, h⟩
  | some a =>
    obtain ⟨users, hnodup, husers⟩ := h.users
    obtain ⟨j, hj, ⟨c, conn, hc, hhere, hstage⟩, hothers⟩ := forall₂_eraseIdx husers hposition
    have hlt : a < s.pool.next := by
      have hmade := h.inv.connected_lt a (List.mem_of_getElem? hposition)
      rwa [← h.pool] at hmade
    obtain ⟨pool, hrun, hsettled, hpool⟩ : ∃ s', Alone maxCached j (turnEnv {}) (fullPath root c.dbPath)
        (s.pool, .connecting a (.live conn)) (s', .connecting a .done) ∧ _ :=
      alone_drop h.settled hlt hposition {}
    rw [h.pool] at hpool
    have hconnections : (Pool.drop position p).connections = p.connections.eraseIdx position :=
      (congrArg Pool.State.connections hpool).symm
    have hsteps := Alone.steps hc hhere
      (fun k d _ hd => h.resting d (List.mem_of_getElem? hd)) hrun
    -- at rest the caller is where its stage says
    have hsame : s.callers.set j { c with stage := .connecting a (.live conn) } = s.callers := by
      rw [← hstage]
      obtain ⟨hlt, rfl⟩ := List.getElem?_eq_some_iff.1 hc
      exact List.set_getElem_self hlt
    rw [hsame] at hsteps
    refine ⟨_, hsteps, hinv, hconnections ▸ hpool, hsettled, fun d hd => ?_, ?_⟩
    · obtain ⟨k, hk⟩ := List.mem_iff_getElem?.1 hd
      rcases mem_set hk with ⟨-, rfl⟩ | ⟨-, hk⟩
      · rfl
      · exact h.resting d (List.mem_of_getElem? hk)
    · rw [hconnections]
      refine ⟨users.eraseIdx position, hnodup.sublist (List.eraseIdx_sublist ..), ?_⟩
      -- the other connections have other callers
      have hne : ∀ k ∈ users.eraseIdx position, k ≠ j := by
        intro k hk
        obtain ⟨hlt, rfl⟩ := List.getElem?_eq_some_iff.1 hj
        rw [← hnodup.erase_getElem position hlt] at hk
        exact (hnodup.mem_erase_iff.1 hk).1
      refine ((List.forall₂_and_left _ _).2 ⟨hne, hothers⟩).imp ?_
      rintro k b ⟨hk, d, conn', hd, hhere', hstage'⟩
      exact ⟨d, conn', (set_ne hk).trans hd, hhere', hstage'⟩

theorem Represents.step (h : Represents p s) (maxCached : Nat) (root : Path) (e : Pool.Event) :
    ∃ s', Steps maxCached root s s' ∧ Represents (Pool.step maxCached root e p) s' := by
  cases e with
  | getConnection env dbPath => exact h.getConnection maxCached root dbPath env
  | drop position => exact h.drop maxCached root position

/-- **Every sequence of calls and drops is a run of the shared pool**, in which each of them ends before
the next one begins: the pool comes through all the states of the sequence. -/
theorem exists_steps (maxCached : Nat) (root : Path) (es : List Pool.Event) (h : Represents p s) :
    ∀ x ∈ Pool.Run maxCached root p es, ∃ s', Steps maxCached root s s' ∧ Represents x.1 s' ∧
      ∃ s'', Steps maxCached root s' s'' ∧ Represents (Pool.step maxCached root x.2 x.1) s'' := by
  induction es generalizing p s with
  | nil => exact fun x hx => absurd hx List.not_mem_nil
  | cons e es ih =>
    obtain ⟨s₁, hfirst, h₁⟩ := h.step maxCached root e
    intro x hx
    rcases List.mem_cons.1 hx with rfl | hx
    · exact ⟨s, .refl, h, s₁, hfirst, h₁⟩
    · obtain ⟨s₂, hrest, h₂⟩ := ih h₁ x hx
      exact ⟨s₂, hfirst.trans hrest, h₂⟩

end Steps

end Events.SharedPool
