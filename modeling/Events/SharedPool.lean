import Events.Pool
import Events.PooledConnections

/-!
# The database pool, shared

`src/pool.rs`: any number of `get_connection` calls on one pool, for any databases, with the drops of
what they return, interleaved at every access to what they share. The cache is behind a read-write lock
and every instance behind its mutex; a call may be dropped wherever it waits.

* **`turn`** — what the caller of a stage does next; **`step`**, with new calls and dropped ones.
* **`Turns`** — what a turn can do; every invariant follows from it.
* **`step_cases`** — a step is a new call, or a caller `Acts`.
* **`Locking`** — the locks are where the stages of the callers have them.
* **`databases_of_turn`** — the cache changes by an eviction or by an insertion.
-/

namespace Events.SharedPool

open Pool (Path Arc Instant Candidate IterOrder accessLe fullPath remove)

/-- How far a caller of `get_connection`, or the drop of what it has returned, has come. -/
inductive Stage where
  | called
  /-- Is to read-lock the cache. -/
  | looking
  | searching
  /-- Has found an instance, and is to lock it. -/
  | touching (a : Arc)
  | stamping (a : Arc)
  | found (a : Arc)
  /-- The database is not in the cache. -/
  | building
  /-- Has a new instance; is to write-lock the cache. -/
  | inserting (a : Arc)
  | checking (a : Arc)
  /-- The first loop of `evict_old_databases`; is to lock the next instance. -/
  | collecting (a : Arc) (databases : List (Path × Arc)) (instances : List Candidate)
  | reading (a : Arc) (d : Path × Arc) (databases : List (Path × Arc)) (instances : List Candidate)
  /-- Its second loop. -/
  | evicting (a : Arc) (instances : List Candidate) (evicted targetEvictions : Nat)
  | testing (a : Arc) (c : Candidate) (instances : List Candidate) (evicted targetEvictions : Nat)
  | caching (a : Arc)
  | cached (a : Arc)
  /-- `get_database` has returned the instance. -/
  | connecting (a : Arc) (stage : PooledConnections.Stage)
  /-- `get_database` has failed. -/
  | failed (e : EsError)

/-- A call of `get_connection`. -/
structure Caller where
  dbPath : Path
  stage : Stage
  /-- Whether the call has been dropped before its end. -/
  gone : Bool

/-- The cache, and the instances that have been made; the others are as new ones. -/
structure Shared where
  databases : List (Path × Arc)
  instances : Arc → PooledConnections.Instance
  lastAccess : Arc → Instant
  /-- The file that the `db` of an instance has open. -/
  file : Arc → Path
  /-- The next free address. -/
  next : Arc

namespace Shared

def setInstance (s : Shared) (a : Arc) (inst : PooledConnections.Instance) : Shared :=
  { s with instances := Function.update s.instances a inst }

/-- The instance is locked by `get_database` or `evict_old_databases`, and unlocked. -/
def lock (s : Shared) (a : Arc) : Shared :=
  s.setInstance a { s.instances a with lock := some .other }

def unlock (s : Shared) (a : Arc) : Shared := s.setInstance a { s.instances a with lock := none }

def touch (s : Shared) (a : Arc) (now : Instant) : Shared :=
  { s with lastAccess := Function.update s.lastAccess a now }

/-- A new instance, of the database at `path`. -/
def build (s : Shared) (path : Path) (now : Instant) : Shared :=
  { s with
    lastAccess := Function.update s.lastAccess s.next now
    file := Function.update s.file s.next path
    next := s.next + 1 }

def evict (s : Shared) (path : Path) : Shared := { s with databases := remove path s.databases }

/-- `HashMap::insert`. -/
def insert (s : Shared) (path : Path) (a : Arc) : Shared :=
  { s with databases := remove path s.databases ++ [(path, a)] }

end Shared

structure State where
  pool : Shared
  callers : List Caller

/-- A new `DatabasePool`. -/
def State.new : State :=
  ⟨⟨[], fun _ => PooledConnections.State.new.inst, fun _ => 0, fun _ => ⟨false, []⟩, 0⟩, []⟩

/-! ## The locks -/

/-- The stages of `get_connection` on an instance that have it locked. -/
def hasLock : PooledConnections.Stage → Bool
  | .cloning | .locked | .counted | .refused | .leaving | .connected _ _ | .returning _ | .returned => true
  | _ => false

/-- Those that wait for its lock. -/
def needsLock : PooledConnections.Stage → Bool
  | .called | .waiting => true
  | _ => false

namespace Stage

/-- Has the cache read-locked. -/
def reads : Stage → Bool
  | searching | touching _ | stamping _ | found _ => true
  | _ => false

/-- Has the cache write-locked. -/
def writes : Stage → Bool
  | checking _ | collecting _ _ _ | reading _ _ _ _ | evicting _ _ _ _ | testing _ _ _ _ _ | caching _
  | cached _ => true
  | _ => false

/-- The instance that is locked. The mutex of `last_access` is taken only under this lock, and for one
access. -/
def locked : Stage → Option Arc
  | stamping a => some a
  | reading _ d _ _ => some d.2
  | testing _ c _ _ _ => some c.arc
  | connecting a stage => if hasLock stage then some a else none
  | _ => none

/-- The instance whose lock is waited for. -/
def needs : Stage → Option Arc
  | touching a => some a
  | collecting _ (d :: _) _ => some d.2
  | evicting _ (c :: _) evicted targetEvictions =>
    if evicted ≥ targetEvictions then none else some c.arc
  | connecting a stage => if needsLock stage then some a else none
  | _ => none

/-- The call may be dropped here: it waits. -/
def awaits : Stage → Bool
  | called | looking | stamping _ | building | inserting _ | reading _ _ _ _ => true
  | stage => stage.needs.isSome

/-- The instance that `get_database` is to return. -/
def arc : Stage → Option Arc
  | touching a | stamping a | found a | inserting a | checking a | collecting a _ _ | reading a _ _ _
  | evicting a _ _ _ | testing a _ _ _ _ | caching a | cached a | connecting a _ => some a
  | _ => none

/-- What the callers of the instance `a` see of this one. -/
def view (a : Arc) : Stage → PooledConnections.Stage
  | connecting b stage => if b = a then stage else .called
  | _ => .called

/-- Neither the call nor the drop is in progress. -/
def atRest : Stage → Bool
  | connecting _ stage => stage.atRest
  | failed _ => true
  | _ => false

/-- The call has failed, or what it returned has been dropped. -/
def isOver : Stage → Bool
  | connecting _ .done => true
  | failed _ => true
  | _ => false

end Stage

namespace Caller

def reads (c : Caller) : Bool := !c.gone && c.stage.reads

def writes (c : Caller) : Bool := !c.gone && c.stage.writes

def locked (c : Caller) : Option Arc := if c.gone then none else c.stage.locked

/-- As whom caller `i` has an instance locked. -/
def holder (i : Nat) (c : Caller) : PooledConnections.Holder :=
  match c.stage with
  | .connecting _ _ => .caller i
  | _ => .other

/-- In progress, or with a `PooledConnection` that has not been dropped. -/
def isOpen (c : Caller) : Bool := !c.gone && !c.stage.isOver

/-- The call or the drop is in progress. -/
def busy (c : Caller) : Bool := !c.gone && !c.stage.atRest

end Caller

/-! ## The turns -/

theorem perm_self (databases : List (Path × Arc)) : (id databases).Perm databases := .refl databases

/-- What a turn depends on besides the pool. -/
structure TurnEnv where
  /-- Whether the file is there. -/
  present : Bool := true
  now : Instant := 0
  /-- The failures of `turso::Builder` and `configure_database`. -/
  build : Option DbError := none
  configure : Option DbError := none
  order : IterOrder := ⟨id, perm_self⟩
  connection : PooledConnections.TurnEnv := {}

/-- The next access of caller `i`, who asks for the database at `path`; `none` while it waits, and after
its end. The cache can be read-locked if it is `readable`, and write-locked if it is `writable`. -/
def turn (maxCached i : Nat) (env : TurnEnv) (readable writable : Bool) (path : Path) (s : Shared) :
    Stage → Option (Shared × Stage)
  | .called =>
    if env.present then some (s, .looking)
    else
      some (s, .failed (.invalidPath s!"Database file does not exist: \"{String.ofList path.toText}\""))
  | .looking => if readable then some (s, .searching) else none
  | .searching =>
    match s.databases.lookup path with
    | some a => some (s, .touching a)
    -- the read guard goes out of scope
    | none => some (s, .building)
  | .touching a => if (s.instances a).lock = none then some (s.lock a, .stamping a) else none
  | .stamping a => some ((s.touch a env.now).unlock a, .found a)
  | .found a => some (s, .connecting a .called)
  | .building =>
    -- nothing is locked: another call may be building the same database
    match env.build, env.configure with
    | some e, _ => some (s, .failed (.db e))
    | none, some e => some (s, .failed (.db e))
    | none, none => some (s.build path env.now, .inserting s.next)
  | .inserting a => if writable then some (s, .checking a) else none
  | .checking a =>
    if s.databases.length ≥ maxCached then
      -- `evict_old_databases` returns at once unless the cache is above its bound
      if s.databases.length ≤ maxCached then some (s, .caching a)
      else some (s, .collecting a (env.order.list s.databases) [])
    else some (s, .caching a)
  | .collecting a [] instances =>
    some (s, .evicting a (instances.insertionSort accessLe) 0 (s.databases.length - maxCached + 1))
  | .collecting a (d :: databases) instances =>
    if (s.instances d.2).lock = none then some (s.lock d.2, .reading a d databases instances) else none
  | .reading a d databases instances =>
    some (s.unlock d.2, .collecting a databases (instances ++ [⟨d.1, d.2, s.lastAccess d.2⟩]))
  | .evicting a [] _ _ => some (s, .caching a)
  | .evicting a (c :: instances) evicted targetEvictions =>
    if evicted ≥ targetEvictions then some (s, .caching a)
    else if (s.instances c.arc).lock = none then
      some (s.lock c.arc, .testing a c instances evicted targetEvictions)
    else none
  | .testing a c instances evicted targetEvictions =>
    if (s.instances c.arc).activeConnections = 0 then
      some ((s.evict c.path).unlock c.arc, .evicting a instances (evicted + 1) targetEvictions)
    else some (s.unlock c.arc, .evicting a instances evicted targetEvictions)
  | .caching a => some (s.insert path a, .cached a)
  | .cached a => some (s, .connecting a .called)
  | .connecting a stage =>
    (PooledConnections.turn i env.connection (s.instances a) stage).map fun (inst, stage') =>
      (s.setInstance a inst, .connecting a stage')
  | .failed _ => none

/-- The guards of a dropped call are dropped. -/
def release (s : Shared) (stage : Stage) : Shared :=
  match stage.locked with
  | some a => s.unlock a
  | none => s

inductive Event where
  | call (dbPath : Path)
  | turn (i : Nat) (env : TurnEnv)
  /-- The future of a call is dropped. -/
  | cancel (i : Nat)

namespace State

def readable (s : State) : Bool := s.callers.all fun c => !c.writes

def writable (s : State) : Bool := s.callers.all fun c => !c.reads && !c.writes

end State

def step (maxCached : Nat) (root : Path) : Event → State → Option State
  | .call dbPath, s => some { s with callers := s.callers ++ [⟨dbPath, .called, false⟩] }
  | .turn i env, s =>
    match s.callers[i]? with
    | none => none
    | some c =>
      if c.gone then none
      else
        (turn maxCached i env s.readable s.writable (fullPath root c.dbPath) s.pool c.stage).map
          fun (pool, stage) => ⟨pool, s.callers.set i { c with stage }⟩
  | .cancel i, s =>
    match s.callers[i]? with
    | none => none
    | some c =>
      if c.gone || !c.stage.awaits then none
      else some ⟨release s.pool c.stage, s.callers.set i { c with gone := true }⟩

namespace State

/-- How many calls are in progress or have a `PooledConnection` out. -/
def openCalls (s : State) : Nat := s.callers.countP Caller.isOpen

end State

/-- The states of the pool, as long as at most `limit` calls are open at once. -/
inductive Reached (maxCached : Nat) (root : Path) (limit : Nat) : State → Prop where
  | new : Reached maxCached root limit .new
  | step {s s' : State} {e : Event} (h : Reached maxCached root limit s) (hopen : s.openCalls ≤ limit)
      (hstep : step maxCached root e s = some s') : Reached maxCached root limit s'

/-! ## A turn, by what it does -/

/-- The turns of a caller, with the pool they leave and the next stage. -/
inductive Turns (maxCached i : Nat) (env : TurnEnv) (readable writable : Bool) (path : Path)
    (s : Shared) : Stage → Shared → Stage → Prop where
  | look : Turns maxCached i env readable writable path s .called s .looking
  | absent (e : EsError) : Turns maxCached i env readable writable path s .called s (.failed e)
  | search (hreadable : readable = true) :
      Turns maxCached i env readable writable path s .looking s .searching
  | hit (a : Arc) (ha : s.databases.lookup path = some a) :
      Turns maxCached i env readable writable path s .searching s (.touching a)
  | miss : Turns maxCached i env readable writable path s .searching s .building
  | touch (a : Arc) (hfree : (s.instances a).lock = none) :
      Turns maxCached i env readable writable path s (.touching a) (s.lock a) (.stamping a)
  | stamp (a : Arc) : Turns maxCached i env readable writable path s (.stamping a)
      ((s.touch a env.now).unlock a) (.found a)
  | found (a : Arc) :
      Turns maxCached i env readable writable path s (.found a) s (.connecting a .called)
  | fail (e : EsError) : Turns maxCached i env readable writable path s .building s (.failed e)
  | build : Turns maxCached i env readable writable path s .building (s.build path env.now)
      (.inserting s.next)
  | write (a : Arc) (hwritable : writable = true) :
      Turns maxCached i env readable writable path s (.inserting a) s (.checking a)
  | fits (a : Arc) (hfits : s.databases.length ≤ maxCached) :
      Turns maxCached i env readable writable path s (.checking a) s (.caching a)
  | full (a : Arc) : Turns maxCached i env readable writable path s (.checking a) s
      (.collecting a (env.order.list s.databases) [])
  | collected (a : Arc) (instances : List Candidate) :
      Turns maxCached i env readable writable path s (.collecting a [] instances) s
        (.evicting a (instances.insertionSort accessLe) 0 (s.databases.length - maxCached + 1))
  | collect (a : Arc) (d : Path × Arc) (databases : List (Path × Arc)) (instances : List Candidate)
      (hfree : (s.instances d.2).lock = none) :
      Turns maxCached i env readable writable path s (.collecting a (d :: databases) instances)
        (s.lock d.2) (.reading a d databases instances)
  | read (a : Arc) (d : Path × Arc) (databases : List (Path × Arc)) (instances : List Candidate) :
      Turns maxCached i env readable writable path s (.reading a d databases instances) (s.unlock d.2)
        (.collecting a databases (instances ++ [⟨d.1, d.2, s.lastAccess d.2⟩]))
  | spent (a : Arc) (evicted targetEvictions : Nat) :
      Turns maxCached i env readable writable path s (.evicting a [] evicted targetEvictions) s
        (.caching a)
  | enough (a : Arc) (c : Candidate) (instances : List Candidate) (evicted targetEvictions : Nat)
      (henough : evicted ≥ targetEvictions) :
      Turns maxCached i env readable writable path s
        (.evicting a (c :: instances) evicted targetEvictions) s (.caching a)
  | test (a : Arc) (c : Candidate) (instances : List Candidate) (evicted targetEvictions : Nat)
      (hfree : (s.instances c.arc).lock = none) :
      Turns maxCached i env readable writable path s
        (.evicting a (c :: instances) evicted targetEvictions) (s.lock c.arc)
        (.testing a c instances evicted targetEvictions)
  | evict (a : Arc) (c : Candidate) (instances : List Candidate) (evicted targetEvictions : Nat)
      (hidle : (s.instances c.arc).activeConnections = 0) :
      Turns maxCached i env readable writable path s
        (.testing a c instances evicted targetEvictions) ((s.evict c.path).unlock c.arc)
        (.evicting a instances (evicted + 1) targetEvictions)
  | spare (a : Arc) (c : Candidate) (instances : List Candidate) (evicted targetEvictions : Nat)
      (hactive : (s.instances c.arc).activeConnections ≠ 0) :
      Turns maxCached i env readable writable path s
        (.testing a c instances evicted targetEvictions) (s.unlock c.arc)
        (.evicting a instances evicted targetEvictions)
  | cache (a : Arc) :
      Turns maxCached i env readable writable path s (.caching a) (s.insert path a) (.cached a)
  | cached (a : Arc) :
      Turns maxCached i env readable writable path s (.cached a) s (.connecting a .called)
  | connect (a : Arc) (st : PooledConnections.Stage) (inst : PooledConnections.Instance)
      (st' : PooledConnections.Stage)
      (hinner : PooledConnections.turn i env.connection (s.instances a) st = some (inst, st')) :
      Turns maxCached i env readable writable path s (.connecting a st) (s.setInstance a inst)
        (.connecting a st')

/-- **A turn**, by the stage of the caller. -/
theorem turns_of_turn {maxCached i : Nat} {env : TurnEnv} {readable writable : Bool} {path : Path}
    {s s' : Shared} {stage stage' : Stage}
    (h : turn maxCached i env readable writable path s stage = some (s', stage')) :
    Turns maxCached i env readable writable path s stage s' stage' := by
  cases stage with
  | called =>
    -- one case per stage, and in it one per outcome of the stage's test
    simp only [turn] at h
    split at h
    · cases h
      exact .look
    · cases h
      exact .absent _
  | looking =>
    simp only [turn] at h
    split at h
    · rename_i hreadable
      cases h
      exact .search hreadable
    · cases h
  | searching =>
    simp only [turn] at h
    split at h
    · rename_i a ha
      cases h
      exact .hit a ha
    · cases h
      exact .miss
  | touching a =>
    simp only [turn] at h
    split at h
    · rename_i hfree
      cases h
      exact .touch a hfree
    · cases h
  | stamping a =>
    cases h
    exact .stamp a
  | found a =>
    cases h
    exact .found a
  | building =>
    simp only [turn] at h
    split at h
    · cases h
      exact .fail _
    · cases h
      exact .fail _
    · cases h
      exact .build
  | inserting a =>
    simp only [turn] at h
    split at h
    · rename_i hwritable
      cases h
      exact .write a hwritable
    · cases h
  | checking a =>
    simp only [turn] at h
    split at h
    · split at h
      · rename_i hfits
        cases h
        exact .fits a hfits
      · cases h
        exact .full a
    · rename_i hless
      cases h
      exact .fits a (Nat.le_of_not_ge hless)
  | collecting a databases instances =>
    cases databases with
    | nil =>
      cases h
      exact .collected a instances
    | cons d databases =>
      simp only [turn] at h
      split at h
      · rename_i hfree
        cases h
        exact .collect a d databases instances hfree
      · cases h
  | reading a d databases instances =>
    cases h
    exact .read a d databases instances
  | evicting a instances evicted targetEvictions =>
    cases instances with
    | nil =>
      cases h
      exact .spent a evicted targetEvictions
    | cons c instances =>
      simp only [turn] at h
      split at h
      · rename_i henough
        cases h
        exact .enough a c instances evicted targetEvictions henough
      · split at h
        · rename_i hfree
          cases h
          exact .test a c instances evicted targetEvictions hfree
        · cases h
  | testing a c instances evicted targetEvictions =>
    simp only [turn] at h
    split at h
    · rename_i hidle
      cases h
      exact .evict a c instances evicted targetEvictions hidle
    · rename_i hactive
      cases h
      exact .spare a c instances evicted targetEvictions hactive
  | caching a =>
    cases h
    exact .cache a
  | cached a =>
    cases h
    exact .cached a
  | connecting a st =>
    -- the stages on the instance are those of `PooledConnections`
    obtain ⟨⟨inst, st'⟩, hinner, heq⟩ := Option.map_eq_some_iff.1 h
    obtain ⟨rfl, rfl⟩ := Prod.mk.inj heq
    exact .connect a st inst st' hinner
  | failed e => cases h

/-! ## Who has what locked -/

section Locks

variable {maxCached i : Nat} {root path : Path} {env : TurnEnv} {readable writable : Bool}
  {s s' : Shared} {stage stage' : Stage}

/-- What a turn on an instance does to its lock. -/
theorem lock_of_turn {env : PooledConnections.TurnEnv} {inst inst' : PooledConnections.Instance}
    {stage stage' : PooledConnections.Stage}
    (h : PooledConnections.turn i env inst stage = some (inst', stage')) :
    (hasLock stage' = hasLock stage ∧ inst'.lock = inst.lock) ∨
    (hasLock stage = false ∧ inst.lock = none ∧ hasLock stage' = true ∧
      inst'.lock = some (.caller i)) ∨
    (hasLock stage = true ∧ hasLock stage' = false ∧ inst'.lock = none) := by
  -- the three kinds of turns: one keeps the lock, one takes it, one gives it back
  cases stage with
  | called | waiting =>
    simp only [PooledConnections.turn] at h
    split at h
    · rename_i hfree
      cases h
      exact .inr (.inl ⟨rfl, hfree, rfl, rfl⟩)
    · cases h
  | cloning | leaving | returned =>
    cases h
    exact .inr (.inr ⟨rfl, rfl, rfl⟩)
  | connected conn reused =>
    cases h
    cases reused with
    | true => exact .inr (.inr ⟨rfl, rfl, rfl⟩)
    | false => exact .inr (.inr ⟨rfl, rfl, rfl⟩)
  | locked | refused | misconfigured conn | live conn | returning conn | releasing =>
    cases h
    exact .inl ⟨rfl, rfl⟩
  | configuring conn =>
    cases h
    split
    · exact .inl ⟨rfl, rfl⟩
    · exact .inl ⟨rfl, rfl⟩
  | counted =>
    simp only [PooledConnections.turn] at h
    split at h
    · cases h
      exact .inl ⟨rfl, rfl⟩
    · split at h
      · cases h
        exact .inl ⟨rfl, rfl⟩
      · cases h
        exact .inl ⟨rfl, rfl⟩
  | dropping conn =>
    simp only [PooledConnections.turn] at h
    split at h
    · -- `try_lock` has got it
      rename_i hfree
      cases h
      exact .inr (.inl ⟨rfl, hfree.1, rfl, rfl⟩)
    · cases h
      exact .inl ⟨rfl, rfl⟩
  -- there is no turn behind the end
  | done => cases h

/-- What a step of caller `i` does to the locks of the instances: nothing, it locks one, or it unlocks
the one it has. -/
inductive LockMove (i : Nat) (c c' : Caller) (s s' : Shared) : Prop where
  | same (hlocked : c'.locked = c.locked) (hholder : c.locked ≠ none → c'.holder i = c.holder i)
      (hlocks : ∀ a, (s'.instances a).lock = (s.instances a).lock)
  | take (a : Arc) (hnone : c.locked = none) (hfree : (s.instances a).lock = none)
      (hlocked : c'.locked = some a) (hlock : (s'.instances a).lock = some (c'.holder i))
      (hothers : ∀ b, b ≠ a → (s'.instances b).lock = (s.instances b).lock)
  | give (a : Arc) (hlocked : c.locked = some a) (hnone : c'.locked = none)
      (hlock : (s'.instances a).lock = none)
      (hothers : ∀ b, b ≠ a → (s'.instances b).lock = (s.instances b).lock)

@[simp] theorem instances_lock (s : Shared) (a : Arc) :
    (s.lock a).instances = Function.update s.instances a { s.instances a with lock := some .other } := rfl

@[simp] theorem instances_unlock (s : Shared) (a : Arc) :
    (s.unlock a).instances = Function.update s.instances a { s.instances a with lock := none } := rfl

/-- A turn that takes no lock and gives none back. -/
theorem LockMove.quiet {dbPath : Path} (hlocked : stage'.locked = stage.locked)
    (hnone : stage.locked = none) (hlocks : ∀ a, (s'.instances a).lock = (s.instances a).lock) :
    LockMove i ⟨dbPath, stage, false⟩ ⟨dbPath, stage', false⟩ s s' :=
  .same hlocked (fun h => absurd hnone h) hlocks

/-- `get_database` or `evict_old_databases` locks an instance. -/
theorem LockMove.lock {dbPath : Path} {a : Arc} (hnone : stage.locked = none)
    (hfree : (s.instances a).lock = none) (hlocked : stage'.locked = some a)
    (hholder : Caller.holder i ⟨dbPath, stage', false⟩ = .other) :
    LockMove i ⟨dbPath, stage, false⟩ ⟨dbPath, stage', false⟩ s (s.lock a) := by
  refine .take a hnone hfree hlocked ?_ fun b hb => ?_
  · rw [hholder, instances_lock, Function.update_self]
  · rw [instances_lock, Function.update_of_ne hb]

/-- They unlock it again. -/
theorem LockMove.unlock {dbPath : Path} {a : Arc} (hlocked : stage.locked = some a)
    (hnone : stage'.locked = none) (hsame : s.instances = s'.instances) :
    LockMove i ⟨dbPath, stage, false⟩ ⟨dbPath, stage', false⟩ s (s'.unlock a) := by
  refine .give a hlocked hnone ?_ fun b hb => ?_
  · rw [instances_unlock, Function.update_self]
  · rw [instances_unlock, Function.update_of_ne hb, hsame]

theorem lockMove_turn {dbPath : Path}
    (h : turn maxCached i env readable writable path s stage = some (s', stage')) :
    LockMove i ⟨dbPath, stage, false⟩ ⟨dbPath, stage', false⟩ s s' := by
  cases turns_of_turn h with
  | touch a hfree => exact .lock rfl hfree rfl rfl
  | collect a d databases instances hfree => exact .lock rfl hfree rfl rfl
  | test a c instances evicted targetEvictions hfree => exact .lock rfl hfree rfl rfl
  | stamp a => exact .unlock rfl rfl rfl
  | read a d databases instances => exact .unlock rfl rfl rfl
  | evict a c instances evicted targetEvictions hidle => exact .unlock rfl rfl rfl
  | spare a c instances evicted targetEvictions hactive => exact .unlock rfl rfl rfl
  | connect a st inst st' hinner =>
    have hself : ((s.setInstance a inst).instances a).lock = inst.lock :=
      congrArg _ (Function.update_self ..)
    have hothers : ∀ b, b ≠ a → ((s.setInstance a inst).instances b).lock = (s.instances b).lock :=
      fun b hb => congrArg _ (Function.update_of_ne hb ..)
    rcases lock_of_turn hinner with ⟨hhas, hlock⟩ | ⟨hno, hfree, hhas, hlock⟩ | ⟨hhas, hno, hlock⟩
    · refine .same ?_ (fun _ => rfl) fun b => ?_
      · simp [Caller.locked, Stage.locked, hhas]
      · by_cases hb : b = a
        · rw [hb, hself, hlock]
        · exact hothers b hb
    · refine .take a ?_ hfree ?_ (hself.trans hlock) hothers
      · simp [Caller.locked, Stage.locked, hno]
      · simp [Caller.locked, Stage.locked, hhas]
    · refine .give a ?_ ?_ (hself.trans hlock) hothers
      · simp [Caller.locked, Stage.locked, hhas]
      · simp [Caller.locked, Stage.locked, hno]
  | _ => exact .quiet rfl rfl fun _ => rfl

/-- What a turn does to the lock of the cache. -/
theorem cache_of_turn (h : turn maxCached i env readable writable path s stage = some (s', stage')) :
    (stage'.reads = true → stage.reads = true ∨ readable = true) ∧
      (stage'.writes = true → stage.writes = true ∨ writable = true) := by
  cases turns_of_turn h with
  | search hreadable => exact ⟨fun _ => .inr hreadable, fun hw => (by cases hw)⟩
  | write a hwritable => exact ⟨fun hr => (by cases hr), fun _ => .inr hwritable⟩
  | _ => simp [Stage.reads, Stage.writes]

end Locks

/-! ## A step, by what it does -/

section Steps

variable {maxCached i j : Nat} {root : Path} {s s' : State} {e : Event} {c c' d : Caller}
  {pool : Shared}

/-- A turn of a caller, or the end of its call where it waits. -/
inductive Acts (maxCached i : Nat) (root : Path) (s : State) (c c' : Caller) (pool : Shared) : Prop where
  | turn (env : TurnEnv) (stage : Stage) (hc' : c' = ⟨c.dbPath, stage, false⟩)
      (h : turn maxCached i env s.readable s.writable (fullPath root c.dbPath) s.pool c.stage =
        some (pool, stage))
  | cancel (hc' : c' = ⟨c.dbPath, c.stage, true⟩) (hawaits : c.stage.awaits = true)
      (hpool : pool = release s.pool c.stage)

/-- **A step** is a new call, or a caller acts. -/
theorem step_cases (h : step maxCached root e s = some s') :
    (∃ dbPath, e = .call dbPath ∧ s' = ⟨s.pool, s.callers ++ [⟨dbPath, .called, false⟩]⟩) ∨
    ∃ i c c' pool, s.callers[i]? = some c ∧ c.gone = false ∧ Acts maxCached i root s c c' pool ∧
      s' = ⟨pool, s.callers.set i c'⟩ := by
  cases e with
  | call dbPath =>
    cases h
    exact .inl ⟨dbPath, rfl, rfl⟩
  | turn i env =>
    simp only [step] at h
    split at h
    · cases h
    · rename_i c hc
      split at h
      · cases h
      · rename_i hgone
        obtain ⟨⟨pool, stage⟩, hturn, rfl⟩ := Option.map_eq_some_iff.1 h
        have hhere : c.gone = false := by simpa using hgone
        exact .inr ⟨i, c, _, pool, hc, hhere, .turn env stage (by rw [hhere]) hturn, rfl⟩
  | cancel i =>
    simp only [step] at h
    split at h
    · cases h
    · rename_i c hc
      split at h
      · cases h
      · rename_i hguard
        obtain ⟨hhere, hawaits⟩ : c.gone = false ∧ c.stage.awaits = true := by simpa using hguard
        cases h
        exact .inr ⟨i, c, _, _, hc, hhere, .cancel rfl hawaits rfl, rfl⟩

/-- The callers after one has acted. -/
theorem mem_set {callers : List Caller} (h : (callers.set i c')[j]? = some d) :
    (j = i ∧ d = c') ∨ (j ≠ i ∧ callers[j]? = some d) := by
  rw [List.getElem?_set] at h
  split at h
  · rename_i heq
    split at h
    · exact .inl ⟨heq.symm, (Option.some.inj h).symm⟩
    · cases h
  · rename_i hne
    exact .inr ⟨fun heq => hne heq.symm, h⟩

theorem set_self {callers : List Caller} (h : callers[i]? = some c) :
    (callers.set i c')[i]? = some c' := by
  obtain ⟨hi, -⟩ := List.getElem?_eq_some_iff.1 h
  rw [List.getElem?_set_self hi]

theorem set_ne {callers : List Caller} (hne : j ≠ i) : (callers.set i c')[j]? = callers[j]? :=
  List.getElem?_set_ne (Ne.symm hne)

/-- The callers after a new call. -/
theorem mem_append_call {callers : List Caller} {dbPath : Path}
    (h : (callers ++ [⟨dbPath, .called, false⟩])[j]? = some d) :
    callers[j]? = some d ∨ d = ⟨dbPath, .called, false⟩ := by
  rcases Nat.lt_or_ge j callers.length with hlt | hge
  · rw [List.getElem?_append_left hlt] at h
    exact .inl h
  · rw [List.getElem?_append_right hge] at h
    exact .inr (List.mem_singleton.1 (List.mem_of_getElem? h))

theorem of_mem_append {callers : List Caller} (h : callers[j]? = some c) (cs : List Caller) :
    (callers ++ cs)[j]? = some c := by
  obtain ⟨hj, -⟩ := List.getElem?_eq_some_iff.1 h
  rw [List.getElem?_append_left hj, h]

theorem Acts.lockMove (h : Acts maxCached i root s c c' pool) (hhere : c.gone = false) :
    LockMove i c c' s.pool pool := by
  obtain ⟨dbPath, stage, gone⟩ := c
  obtain rfl : gone = false := hhere
  cases h with
  | turn env stage' hc' hturn =>
    subst hc'
    exact lockMove_turn hturn
  | cancel hc' hawaits hpool =>
    subst hc' hpool
    cases hlocked : stage.locked with
    | none =>
      rw [release, hlocked]
      exact .same (by simp [Caller.locked, hlocked]) (fun _ => rfl) fun _ => rfl
    | some a =>
      rw [release, hlocked]
      refine .give a (by simpa [Caller.locked] using hlocked) (by simp [Caller.locked]) ?_ fun b hb => ?_
      · show ((s.pool.unlock a).instances a).lock = none
        rw [instances_unlock, Function.update_self]
      · show ((s.pool.unlock a).instances b).lock = _
        rw [instances_unlock, Function.update_of_ne hb]

theorem Acts.cache (h : Acts maxCached i root s c c' pool) (hhere : c.gone = false) :
    (c'.reads = true → c.reads = true ∨ s.readable = true) ∧
      (c'.writes = true → c.writes = true ∨ s.writable = true) := by
  cases h with
  | turn env stage hc' hturn =>
    subst hc'
    obtain ⟨hreads, hwrites⟩ := cache_of_turn hturn
    refine ⟨fun hr => ?_, fun hw => ?_⟩
    · refine (hreads (by simpa [Caller.reads] using hr)).imp_left fun hr => ?_
      simp [Caller.reads, hhere, hr]
    · refine (hwrites (by simpa [Caller.writes] using hw)).imp_left fun hw => ?_
      simp [Caller.writes, hhere, hw]
  | cancel hc' hawaits hpool =>
    subst hc'
    exact ⟨fun hr => (by simp [Caller.reads] at hr), fun hw => (by simp [Caller.writes] at hw)⟩

/-! ## The locks are where the callers have them -/

/-- The locks of the instances and of the cache, by the stages of the callers. -/
structure Locking (s : State) : Prop where
  held : ∀ (i : Nat) (c : Caller) a, s.callers[i]? = some c → c.locked = some a →
    (s.pool.instances a).lock = some (c.holder i)
  holder : ∀ a, (s.pool.instances a).lock ≠ none →
    ∃ (i : Nat) (c : Caller), s.callers[i]? = some c ∧ c.locked = some a
  alone : ∀ (i j : Nat) (c d : Caller) a, s.callers[i]? = some c → s.callers[j]? = some d → c.locked = some a →
    d.locked = some a → i = j
  exclusive : ∀ (i j : Nat) (c d : Caller), s.callers[i]? = some c → s.callers[j]? = some d → c.writes = true →
    (d.reads || d.writes) = true → i = j

theorem locking_new : Locking .new where
  held i c a h _ := by cases h
  holder a h := absurd rfl h
  alone i j c d a h _ _ _ := by cases h
  exclusive i j c d h _ _ _ := by cases h

theorem Locking.called (h : Locking s) (dbPath : Path) :
    Locking ⟨s.pool, s.callers ++ [⟨dbPath, .called, false⟩]⟩ where
  held i c a hc ha := by
    rcases mem_append_call hc with hc | rfl
    · exact h.held i c a hc ha
    · cases ha
  holder a ha := by
    obtain ⟨i, c, hc, hlocked⟩ := h.holder a ha
    exact ⟨i, c, of_mem_append hc _, hlocked⟩
  alone i j c d a hc hd hca hda := by
    rcases mem_append_call hc with hc | rfl
    · rcases mem_append_call hd with hd | rfl
      · exact h.alone i j c d a hc hd hca hda
      · cases hda
    · cases hca
  exclusive i j c d hc hd hcw hdrw := by
    rcases mem_append_call hc with hc | rfl
    · rcases mem_append_call hd with hd | rfl
      · exact h.exclusive i j c d hc hd hcw hdrw
      · cases hdrw
    · cases hcw

theorem Locking.acts (h : Locking s) (hc : s.callers[i]? = some c) (hhere : c.gone = false)
    (hacts : Acts maxCached i root s c c' pool) : Locking ⟨pool, s.callers.set i c'⟩ := by
  -- only `c` changes what it has locked, so every field is about `c` or about the others
  have hmove := hacts.lockMove hhere
  -- who has an instance locked still has it so, unless it is the one who has acted
  have hkept : ∀ (j : Nat) (d : Caller) a, j ≠ i → s.callers[j]? = some d → d.locked = some a →
      (pool.instances a).lock = (s.pool.instances a).lock := by
    intro j d a hne hd hda
    cases hmove with
    | same hlocked hholder hlocks => exact hlocks a
    | take b hnone hfree hlocked hlock hothers =>
      refine hothers a fun hab => ?_
      have hheld := h.held j d a hd hda
      rw [hab, hfree] at hheld
      cases hheld
    | give b hlocked hnone hlock hothers =>
      refine hothers a fun hab => hne ?_
      exact h.alone j i d c a hd hc hda (hab ▸ hlocked)
  have hown : ∀ a, c'.locked = some a → (pool.instances a).lock = some (c'.holder i) := by
    intro a ha
    cases hmove with
    | same hlocked hholder hlocks =>
      have hca : c.locked = some a := hlocked ▸ ha
      rw [hlocks, h.held i c a hc hca, hholder (by rw [hca]; exact Option.some_ne_none a)]
    | take b hnone hfree hlocked hlock hothers =>
      rw [hlocked] at ha
      obtain rfl := Option.some.inj ha
      exact hlock
    | give b hlocked hnone hlock hothers =>
      rw [hnone] at ha
      cases ha
  -- what the one who has acted has locked, nobody else has
  have hsole : ∀ (j : Nat) (d : Caller) a, j ≠ i → s.callers[j]? = some d → d.locked = some a →
      c'.locked ≠ some a := by
    intro j d a hne hd hda ha
    cases hmove with
    | same hlocked hholder hlocks => exact hne (h.alone j i d c a hd hc hda (hlocked ▸ ha))
    | take b hnone hfree hlocked hlock hothers =>
      rw [hlocked] at ha
      obtain rfl := Option.some.inj ha
      have hheld := h.held j d b hd hda
      rw [hfree] at hheld
      cases hheld
    | give b hlocked hnone hlock hothers =>
      rw [hnone] at ha
      cases ha
  constructor
  case held =>
    intro j d a hd hda
    rcases mem_set hd with ⟨rfl, rfl⟩ | ⟨hne, hd⟩
    · exact hown a hda
    · exact (hkept j d a hne hd hda).trans (h.held j d a hd hda)
  case holder =>
    intro a ha
    by_cases hca : c'.locked = some a
    · exact ⟨i, c', set_self hc, hca⟩
    · -- it was locked before, and not by `c`
      have hlock : (s.pool.instances a).lock ≠ none ∧ c.locked ≠ some a := by
        cases hmove with
        | same hlocked hholder hlocks => exact ⟨hlocks a ▸ ha, hlocked ▸ hca⟩
        | take b hnone hfree hlocked hlock hothers =>
          have hab : a ≠ b := fun hab => hca (hab ▸ hlocked)
          rw [hnone]
          exact ⟨hothers a hab ▸ ha, by simp⟩
        | give b hlocked hnone hlock hothers =>
          have hab : a ≠ b := fun hab => ha (hab ▸ hlock)
          rw [hlocked]
          exact ⟨hothers a hab ▸ ha, fun heq => hab (Option.some.inj heq).symm⟩
      obtain ⟨j, d, hd, hda⟩ := h.holder a hlock.1
      have hne : j ≠ i := by
        rintro rfl
        rw [hc] at hd
        obtain rfl := Option.some.inj hd
        exact hlock.2 hda
      exact ⟨j, d, (set_ne hne).trans hd, hda⟩
  case alone =>
    intro j k d d' a hd hd' hda hda'
    rcases mem_set hd with ⟨rfl, rfl⟩ | ⟨hj, hj'⟩
    · rcases mem_set hd' with ⟨rfl, rfl⟩ | ⟨hk, hk'⟩
      · rfl
      · exact absurd hda (hsole k d' a hk hk' hda')
    · rcases mem_set hd' with ⟨rfl, rfl⟩ | ⟨hk, hk'⟩
      · exact absurd hda' (hsole j d a hj hj' hda)
      · exact h.alone j k d d' a hj' hk' hda hda'
  case exclusive =>
    obtain ⟨hreads, hwrites⟩ := hacts.cache hhere
    have hwritable : s.writable = true → ∀ (j : Nat) (d : Caller), s.callers[j]? = some d →
        (d.reads || d.writes) = false := by
      intro hall j d hd
      have hd' := List.all_eq_true.1 hall d (List.mem_of_getElem? hd)
      simpa using hd'
    have hreadable : s.readable = true → ∀ (j : Nat) (d : Caller), s.callers[j]? = some d →
        d.writes = false := by
      intro hall j d hd
      have hd' := List.all_eq_true.1 hall d (List.mem_of_getElem? hd)
      simpa using hd'
    intro j k d d' hd hd' hdw hdrw
    rcases mem_set hd with ⟨rfl, rfl⟩ | ⟨hj, hj'⟩
    · rcases mem_set hd' with ⟨rfl, rfl⟩ | ⟨hk, hk'⟩
      · rfl
      · rcases hwrites hdw with hcw | hfree
        · exact h.exclusive _ k c d' hc hk' hcw hdrw
        · rw [hwritable hfree k d' hk'] at hdrw
          cases hdrw
    · rcases mem_set hd' with ⟨rfl, rfl⟩ | ⟨hk, hk'⟩
      · have hold : (c.reads || c.writes) = true := by
          rcases Bool.or_eq_true_iff.1 hdrw with hr | hw
          · rcases hreads hr with hr | hfree
            · simp [hr]
            · rw [hreadable hfree j d hj'] at hdw
              cases hdw
          · rcases hwrites hw with hw | hfree
            · simp [hw]
            · have hnone := hwritable hfree j d hj'
              rw [hdw, Bool.or_true] at hnone
              cases hnone
        exact h.exclusive j _ d c hj' hc hdw hold
      · exact h.exclusive j k d d' hj' hk' hdw hdrw

/-- **Every step keeps the locks where the callers have them.** -/
theorem Locking.step (h : Locking s) (hstep : step maxCached root e s = some s') : Locking s' := by
  rcases step_cases hstep with ⟨dbPath, -, rfl⟩ | ⟨i, c, c', pool, hc, hhere, hacts, rfl⟩
  · exact h.called dbPath
  · exact h.acts hc hhere hacts

end Steps

/-! ## The cache and the runs -/

/-- The cache changes by an eviction or by an insertion. -/
theorem databases_of_turn {maxCached i : Nat} {path : Path} {env : TurnEnv}
    {readable writable : Bool} {s s' : Shared} {stage stage' : Stage}
    (h : turn maxCached i env readable writable path s stage = some (s', stage')) :
    s'.databases = s.databases ∨
    (∃ a c instances evicted targetEvictions,
      stage = .testing a c instances evicted targetEvictions ∧
      (s.instances c.arc).activeConnections = 0 ∧ s'.databases = remove c.path s.databases ∧
      stage' = .evicting a instances (evicted + 1) targetEvictions) ∨
    ∃ a, stage = .caching a ∧ stage' = .cached a ∧
      s'.databases = remove path s.databases ++ [(path, a)] := by
  cases turns_of_turn h with
  | evict a c instances evicted targetEvictions hidle =>
    exact .inr (.inl ⟨a, c, instances, evicted, targetEvictions, rfl, hidle, rfl, rfl⟩)
  | cache a => exact .inr (.inr ⟨a, rfl, rfl, rfl⟩)
  | _ => exact .inl rfl

theorem length_remove_le (path : Path) (databases : List (Path × Arc)) :
    (remove path databases).length ≤ databases.length := List.length_filter_le _ _

@[simp] theorem databases_release (s : Shared) (stage : Stage) :
    (release s stage).databases = s.databases := by
  unfold release
  split
  · rfl
  · rfl

/-- The state after a sequence of events, if each is possible when it comes. -/
def run (maxCached : Nat) (root : Path) : List Event → State → Option State
  | [], s => some s
  | e :: es, s => (step maxCached root e s).bind (run maxCached root es)

/-- At most `limit` calls are open before each of the events. -/
def within (maxCached : Nat) (root : Path) (limit : Nat) : List Event → State → Bool
  | [], _ => true
  | e :: es, s => decide (s.openCalls ≤ limit) &&
    ((step maxCached root e s).all fun s' => within maxCached root limit es s')

theorem Reached.run {maxCached limit : Nat} {root : Path} {es : List Event} {s s' : State}
    (h : Reached maxCached root limit s) (hrun : run maxCached root es s = some s')
    (hwithin : within maxCached root limit es s = true) : Reached maxCached root limit s' := by
  induction es generalizing s with
  | nil =>
    cases hrun
    exact h
  | cons e es ih =>
    obtain ⟨s₁, hstep, hrest⟩ := Option.bind_eq_some_iff.1 hrun
    simp only [within, hstep, Option.all_some, Bool.and_eq_true, decide_eq_true_eq] at hwithin
    exact ih (h.step hwithin.1 hstep) hrest hwithin.2

def dataDir : Path := ⟨true, [['d', 'a', 't', 'a']]⟩

/-- The relative path of a file. -/
def fileAt (name : Char) : Path := ⟨false, [[name]]⟩

end Events.SharedPool
