import Mathlib.Data.List.Nodup
import Events.Error

/-!
# The connections of one database

`src/pool.rs`: any number of `get_connection` calls on one cached `DatabaseInstance`, and the drops of
the `PooledConnection`s they return, interleaved at every access to what they share: the instance behind
its mutex, and the counter of active connections, which is read and written without it.

* **`turn`** — what the caller of a stage does next; **`step`**, with the other holders of the mutex.
* **`held`** — how often a connection is held, by the cache slot and by the callers.
* **`Turned`** — what one turn can do; every invariant follows from it.
* **`Accounted`** — the invariant: no connection is held twice, and the counter counts the callers
  that have counted themselves.
* **`one_owner`** — the result on every interleaving.
-/

namespace Events.PooledConnections

/-- The number of a `turso::Connection`, in the order in which they were made. -/
abbrev Conn := Nat

/-- How far a caller of `get_connection`, or the drop of what it has returned, has come. -/
inductive Stage where
  /-- Has the instance; is to lock it for the counter. -/
  | called
  | cloning
  /-- Has the counter; is to lock the instance again. -/
  | waiting
  | locked
  /-- Has counted itself. -/
  | counted
  /-- `connect` has failed. -/
  | refused
  | leaving
  /-- Has a connection, and still the lock. -/
  | connected (conn : Conn) (reused : Bool)
  /-- Is to configure a new connection. -/
  | configuring (conn : Conn)
  /-- `configure_connection` has failed. -/
  | misconfigured (conn : Conn)
  /-- The `PooledConnection` has been returned. -/
  | live (conn : Conn)
  /-- `drop` has taken the connection; is to try the lock. -/
  | dropping (conn : Conn)
  | returning (conn : Conn)
  | returned
  /-- Is to count itself out. -/
  | releasing
  | done
  deriving DecidableEq

/-- Who has locked the instance. -/
inductive Holder where
  | caller (i : Nat)
  /-- `get_database`, `evict_old_databases` or `stats`. -/
  | other
  deriving DecidableEq

/-- `DatabaseInstance`, and the number of the next connection. -/
structure Instance where
  cachedConnection : Option Conn
  activeConnections : Nat
  lock : Option Holder
  next : Conn

/-- `fetch_sub` wraps around at zero. -/
def fetchSub (n : Nat) : Nat := if n = 0 then 2 ^ 64 - 1 else n - 1

/-- What a turn depends on besides the instance: whether `try_lock` succeeds when nobody has the lock,
and the outcomes of `connect` and `configure_connection`. -/
structure TurnEnv where
  tryLock : Bool := true
  connect : Bool := true
  configure : Bool := true

/-- The next access of caller `i`; `none` while it waits, and after its end. -/
def turn (i : Nat) (env : TurnEnv) (inst : Instance) : Stage → Option (Instance × Stage)
  | .called =>
    if inst.lock = none then some ({ inst with lock := some (.caller i) }, .cloning) else none
  | .cloning => some ({ inst with lock := none }, .waiting)
  | .waiting =>
    if inst.lock = none then some ({ inst with lock := some (.caller i) }, .locked) else none
  | .locked => some ({ inst with activeConnections := inst.activeConnections + 1 }, .counted)
  | .counted =>
    match inst.cachedConnection with
    | some conn => some ({ inst with cachedConnection := none }, .connected conn true)
    | none =>
      if env.connect then some ({ inst with next := inst.next + 1 }, .connected inst.next false)
      else some (inst, .refused)
  | .refused => some ({ inst with activeConnections := fetchSub inst.activeConnections }, .leaving)
  | .leaving => some ({ inst with lock := none }, .done)
  | .connected conn reused =>
    some ({ inst with lock := none }, if reused then .live conn else .configuring conn)
  | .configuring conn => some (inst, if env.configure then .live conn else .misconfigured conn)
  | .misconfigured _ => some ({ inst with activeConnections := fetchSub inst.activeConnections }, .done)
  | .live conn => some (inst, .dropping conn)
  | .dropping conn =>
    if inst.lock = none ∧ env.tryLock then
      some ({ inst with lock := some (.caller i) }, .returning conn)
    else some (inst, .releasing)
  | .returning conn => some ({ inst with cachedConnection := some conn }, .returned)
  | .returned => some ({ inst with lock := none }, .releasing)
  -- `fetch_update` leaves a counter of zero alone
  | .releasing => some ({ inst with activeConnections := inst.activeConnections - 1 }, .done)
  | .done => none

/-- The instance and its callers. -/
structure State where
  inst : Instance
  callers : List Stage

/-- A new `DatabaseInstance`. -/
def State.new : State := ⟨⟨none, 0, none, 0⟩, []⟩

inductive Event where
  /-- `get_connection` is called. -/
  | call
  | turn (i : Nat) (env : TurnEnv)
  /-- The other holders lock the instance, and unlock it. -/
  | lock
  | unlock

def step : Event → State → Option State
  | .call, s => some { s with callers := s.callers ++ [.called] }
  | .turn i env, s =>
    match s.callers[i]? with
    | none => none
    | some stage =>
      (turn i env s.inst stage).map fun (inst, stage') => ⟨inst, s.callers.set i stage'⟩
  | .lock, s =>
    if s.inst.lock = none then some { s with inst := { s.inst with lock := some .other } } else none
  | .unlock, s =>
    if s.inst.lock = some .other then some { s with inst := { s.inst with lock := none } } else none

/-- The state after a sequence of events, if each is possible when it comes. -/
def run : List Event → State → Option State
  | [], s => some s
  | e :: es, s => (step e s).bind (run es)

/-! ## Stages -/

namespace Stage

/-- The connection that a caller holds. -/
def conn : Stage → Option Conn
  | connected conn _ | configuring conn | misconfigured conn | live conn | dropping conn
  | returning conn => some conn
  | _ => none

/-- The connection of a `PooledConnection` that has not been dropped. -/
def liveConn : Stage → Option Conn
  | live conn => some conn
  | _ => none

/-- The caller is in the counter. -/
def counts : Stage → Bool
  | called | cloning | waiting | locked | leaving | done => false
  | _ => true

/-- The next turn lowers the counter. -/
def lowers : Stage → Bool
  | refused | misconfigured _ | releasing => true
  | _ => false

/-- Neither a call nor a drop is in progress. -/
def atRest : Stage → Bool
  | live _ | done => true
  | _ => false

end Stage

/-! ## One turn -/

/-- How often the cache slot and a caller at a stage hold a connection. -/
def holds (inst : Instance) (stage : Stage) (c : Conn) : Nat :=
  inst.cachedConnection.toList.count c + stage.conn.toList.count c

/-- What a turn can do: it hands connections on, drops them, or makes one, and the counter follows the
caller. -/
structure Turned (inst inst' : Instance) (stage stage' : Stage) : Prop where
  held : ∀ c, holds inst' stage' c ≤ holds inst stage c ∨
    c = inst.next ∧ inst'.next = inst.next + 1 ∧ holds inst' stage' c ≤ holds inst stage c + 1
  next : inst.next ≤ inst'.next
  counter : 0 < inst.activeConnections ∨ stage.counts = false →
    inst'.activeConnections + stage.counts.toNat = inst.activeConnections + stage'.counts.toNat

variable {i : Nat} {env : TurnEnv} {inst inst' : Instance} {stage stage' : Stage}

/-- A turn that only locks, unlocks or goes on. -/
theorem Turned.of_same (hcached : inst'.cachedConnection = inst.cachedConnection)
    (hactive : inst'.activeConnections = inst.activeConnections) (hnext : inst'.next = inst.next)
    (hconn : stage'.conn = stage.conn ∨ stage'.conn = none) (hcounts : stage'.counts = stage.counts) :
    Turned inst inst' stage stage' where
  held := by
    intro c
    left
    unfold holds
    rw [hcached]
    rcases hconn with hconn | hconn
    · rw [hconn]
    · rw [hconn]
      exact Nat.add_le_add_left (Nat.zero_le _) _
  next := hnext.ge
  counter := fun _ => by rw [hactive, hcounts]

theorem fetchSub_of_pos {n : Nat} (h : 0 < n) : fetchSub n + 1 = n := by
  unfold fetchSub
  rw [if_neg (by omega)]
  omega

/-- **One turn**, by the stage of the caller. -/
theorem turned_of_turn (h : turn i env inst stage = some (inst', stage')) :
    Turned inst inst' stage stage' := by
  cases stage with
  | called | waiting =>
    simp only [turn] at h
    split at h
    · cases h
      exact .of_same rfl rfl rfl (.inl rfl) rfl
    · cases h
  | cloning | leaving | returned =>
    cases h
    exact .of_same rfl rfl rfl (.inl rfl) rfl
  | live conn =>
    cases h
    exact .of_same rfl rfl rfl (.inl rfl) rfl
  | connected conn reused =>
    cases h
    cases reused with
    | true => exact .of_same rfl rfl rfl (.inl rfl) rfl
    | false => exact .of_same rfl rfl rfl (.inl rfl) rfl
  | configuring conn =>
    cases h
    split
    · exact .of_same rfl rfl rfl (.inl rfl) rfl
    · exact .of_same rfl rfl rfl (.inl rfl) rfl
  | dropping conn =>
    simp only [turn] at h
    split at h
    · cases h
      exact .of_same rfl rfl rfl (.inl rfl) rfl
    · -- `try_lock` has failed: the connection is closed
      cases h
      exact .of_same rfl rfl rfl (.inr rfl) rfl
  | locked =>
    cases h
    exact ⟨fun c => .inl (le_refl _), le_refl _, fun _ => rfl⟩
  | counted =>
    simp only [turn] at h
    split at h
    · -- the cached connection goes to the caller
      rename_i conn hcached
      cases h
      refine ⟨fun c => .inl ?_, le_refl _, fun _ => rfl⟩
      simp [holds, Stage.conn, hcached]
    · rename_i hcached
      split at h
      · -- a new connection
        cases h
        refine ⟨fun c => ?_, Nat.le_succ _, fun _ => rfl⟩
        by_cases hc : c = inst.next
        · subst hc
          exact .inr ⟨rfl, rfl, by simp [holds, Stage.conn]⟩
        · left
          simp [holds, Stage.conn, Ne.symm hc]
      · cases h
        exact .of_same rfl rfl rfl (.inl rfl) rfl
  | refused =>
    cases h
    refine ⟨fun c => .inl (le_refl _), le_refl _, fun hpos => ?_⟩
    exact fetchSub_of_pos (hpos.resolve_right (by decide))
  | misconfigured conn =>
    cases h
    refine ⟨fun c => .inl (Nat.add_le_add_left (Nat.zero_le _) _), le_refl _, fun hpos => ?_⟩
    exact fetchSub_of_pos (hpos.resolve_right (by simp [Stage.counts]))
  | returning conn =>
    -- what the slot held is closed
    cases h
    refine ⟨fun c => .inl ?_, le_refl _, fun _ => rfl⟩
    simp [holds, Stage.conn]
  | releasing =>
    cases h
    refine ⟨fun c => .inl (le_refl _), le_refl _, fun hpos => ?_⟩
    exact Nat.sub_add_cancel (hpos.resolve_right (by decide))
  | done => cases h

/-! ## The accounts -/

/-- The connections that the callers hold. -/
def State.conns (s : State) : List Conn := s.callers.filterMap Stage.conn

/-- How often a connection is held, by the slot and by the callers. -/
def State.held (s : State) (c : Conn) : Nat := s.inst.cachedConnection.toList.count c + s.conns.count c

/-- No connection is held twice, and the counter counts the callers that have counted themselves. -/
structure Accounted (s : State) : Prop where
  once : ∀ c, s.held c ≤ 1
  made : ∀ c, s.inst.next ≤ c → s.held c = 0
  counter : s.inst.activeConnections = s.callers.countP Stage.counts

theorem accounted_new : Accounted .new :=
  ⟨fun _ => Nat.zero_le _, fun _ _ => rfl, rfl⟩

theorem count_conns (before after : List Stage) (stage : Stage) (c : Conn) :
    ((before ++ stage :: after).filterMap Stage.conn).count c =
      stage.conn.toList.count c + ((before ++ after).filterMap Stage.conn).count c := by
  rw [List.filterMap_append, List.filterMap_append, List.count_append, List.count_append]
  cases hconn : stage.conn with
  | none =>
    rw [List.filterMap_cons_none hconn]
    simp
  | some conn =>
    rw [List.filterMap_cons_some hconn, List.count_cons]
    simp only [Option.toList_some, List.count_singleton]
    omega

theorem countP_counts (before after : List Stage) (stage : Stage) :
    (before ++ stage :: after).countP Stage.counts =
      stage.counts.toNat + (before ++ after).countP Stage.counts := by
  rw [List.countP_append, List.countP_append, List.countP_cons]
  cases stage.counts with
  | false => simp
  | true =>
    rw [if_pos rfl, Bool.toNat_true]
    omega

/-- A caller in the counter is counted by it. -/
theorem Accounted.counted {s : State} (h : Accounted s) (hstage : stage ∈ s.callers)
    (hcounts : stage.counts = true) : 0 < s.inst.activeConnections := by
  rw [h.counter]
  exact List.countP_pos_iff.2 ⟨stage, hstage, hcounts⟩

/-- **A turn keeps the accounts.** -/
theorem Accounted.turn {before after : List Stage} (h : Accounted ⟨inst, before ++ stage :: after⟩)
    (hturn : Turned inst inst' stage stage') : Accounted ⟨inst', before ++ stage' :: after⟩ := by
  -- a connection is held by this caller, by the instance or by another caller
  have hheld : ∀ inst stage c, State.held ⟨inst, before ++ stage :: after⟩ c =
      holds inst stage c + ((before ++ after).filterMap Stage.conn).count c := by
    intro inst stage c
    show inst.cachedConnection.toList.count c +
      ((before ++ stage :: after).filterMap Stage.conn).count c = _
    rw [count_conns, holds]
    omega
  have hpos : 0 < inst.activeConnections ∨ stage.counts = false := by
    cases hcounts : stage.counts with
    | false => exact .inr rfl
    | true => exact .inl (h.counted (List.mem_append_right _ List.mem_cons_self) hcounts)
  refine ⟨fun c => ?_, fun c hc => ?_, ?_⟩
  · have honce := h.once c
    rw [hheld] at honce ⊢
    rcases hturn.held c with hle | ⟨rfl, -, hle⟩
    · omega
    · -- nobody holds a connection before it is made
      have hnew : State.held ⟨inst, before ++ stage :: after⟩ inst.next = 0 := h.made _ (le_refl _)
      rw [hheld] at hnew
      omega
  · have hnone := h.made c (hturn.next.trans hc)
    rw [hheld] at hnone ⊢
    rcases hturn.held c with hle | ⟨rfl, hnext, -⟩
    · omega
    · have hlt : inst.next + 1 ≤ inst.next := hnext ▸ hc
      exact absurd hlt (Nat.not_succ_le_self _)
  · have hcount := h.counter
    have hafter := hturn.counter hpos
    rw [countP_counts] at hcount ⊢
    show inst'.activeConnections = _
    have hbefore : inst.activeConnections = _ := hcount
    omega

/-- **Every event keeps the accounts.** -/
theorem Accounted.step {s s' : State} {e : Event} (h : Accounted s) (hstep : step e s = some s') :
    Accounted s' := by
  cases e with
  | call =>
    cases hstep
    -- a new caller holds nothing and is not counted
    have hheld : ∀ c, State.held ⟨s.inst, s.callers ++ [.called]⟩ c = s.held c := by
      intro c
      show s.inst.cachedConnection.toList.count c +
        ((s.callers ++ [Stage.called]).filterMap Stage.conn).count c = _
      rw [count_conns, List.append_nil]
      simp [State.held, State.conns, Stage.conn]
    refine ⟨fun c => ?_, fun c hc => ?_, ?_⟩
    · rw [hheld]
      exact h.once c
    · rw [hheld]
      exact h.made c hc
    · show s.inst.activeConnections = (s.callers ++ [Stage.called]).countP Stage.counts
      rw [countP_counts, List.append_nil, h.counter]
      simp [Stage.counts]
  | turn i env =>
    simp only [PooledConnections.step] at hstep
    split at hstep
    · cases hstep
    · rename_i stage hstage
      obtain ⟨⟨inst', stage'⟩, hturn, rfl⟩ := Option.map_eq_some_iff.1 hstep
      obtain ⟨hi, rfl⟩ := List.getElem?_eq_some_iff.1 hstage
      -- the caller in the middle of the others
      have hsplit : s.callers = s.callers.take i ++ s.callers[i] :: s.callers.drop (i + 1) := by
        simp
      have hset : s.callers.set i stage' = s.callers.take i ++ stage' :: s.callers.drop (i + 1) :=
        List.set_eq_take_append_cons_drop ▸ if_pos hi
      have hs : Accounted ⟨s.inst, s.callers.take i ++ s.callers[i] :: s.callers.drop (i + 1)⟩ := by
        rw [← hsplit]
        exact h
      show Accounted ⟨inst', s.callers.set i stage'⟩
      rw [hset]
      exact hs.turn (turned_of_turn hturn)
  | lock =>
    simp only [PooledConnections.step] at hstep
    split at hstep
    · cases hstep
      exact ⟨h.once, h.made, h.counter⟩
    · cases hstep
  | unlock =>
    simp only [PooledConnections.step] at hstep
    split at hstep
    · cases hstep
      exact ⟨h.once, h.made, h.counter⟩
    · cases hstep

/-- By induction on the events. -/
theorem Accounted.run {s s' : State} {es : List Event} (h : Accounted s) (hrun : run es s = some s') :
    Accounted s' := by
  induction es generalizing s with
  | nil =>
    cases hrun
    exact h
  | cons e es ih =>
    obtain ⟨s₁, hstep, hrest⟩ := Option.bind_eq_some_iff.1 hrun
    exact ih (h.step hstep) hrest

/-! ## One owner, and an exact count -/

/-- The connections of the `PooledConnection`s that have not been dropped. -/
def State.liveConns (s : State) : List Conn := s.callers.filterMap Stage.liveConn

/-- What the pool is to guarantee about one instance. -/
structure OneOwner (s : State) : Prop where
  /-- A connection is in the cache slot, or in one live `PooledConnection`. -/
  owners : (s.inst.cachedConnection.toList ++ s.liveConns).Nodup
  bound : s.liveConns.length ≤ s.inst.activeConnections
  exact : (∀ stage ∈ s.callers, stage.atRest = true) →
    s.inst.activeConnections = s.liveConns.length
  /-- The counter is above zero whenever it is lowered. -/
  lowered : ∀ stage ∈ s.callers, stage.lowers = true → 0 < s.inst.activeConnections

theorem liveConns_sublist (s : State) : s.liveConns.Sublist s.conns := by
  unfold State.liveConns State.conns
  induction s.callers with
  | nil => exact .slnil
  | cons stage callers ih =>
    cases stage <;> first | exact ih.cons_cons _ | exact ih.cons _ | exact ih

theorem Accounted.oneOwner {s : State} (h : Accounted s) : OneOwner s where
  owners := by
    have hall : (s.inst.cachedConnection.toList ++ s.conns).Nodup := by
      refine List.nodup_iff_count_le_one.2 fun c => ?_
      rw [List.count_append]
      exact h.once c
    exact hall.sublist ((liveConns_sublist s).append_left _)
  bound := by
    rw [h.counter, State.liveConns, List.length_filterMap_eq_countP]
    refine List.countP_mono_left fun stage _ hlive => ?_
    cases stage <;> first | rfl | cases hlive
  exact := by
    intro hrest
    rw [h.counter, State.liveConns, List.length_filterMap_eq_countP]
    refine List.countP_congr fun stage hstage => ?_
    have hat := hrest stage hstage
    cases stage <;> simp [Stage.atRest, Stage.counts, Stage.liveConn] at hat ⊢
  lowered := by
    intro stage hstage hlowers
    refine h.counted hstage ?_
    cases stage <;> first | rfl | cases hlowers

/-- **One owner for each connection, and an exact count**, after any calls and drops on an instance,
interleaved in any way. -/
theorem one_owner {es : List Event} {s : State} (h : run es .new = some s) : OneOwner s :=
  (accounted_new.run h).oneOwner

/-- Two calls make a connection each. The first one is dropped while the instance is locked, the second
one goes back to the slot, and a third call reuses it. -/
def threeCalls : List Event :=
  [.call, .call] ++ List.replicate 7 (.turn 0 {}) ++ List.replicate 7 (.turn 1 {}) ++
    [.turn 0 {}, .lock, .turn 0 {}, .unlock] ++ List.replicate 5 (.turn 1 {}) ++ [.turn 0 {}, .call] ++
    List.replicate 6 (.turn 2 {})

theorem one_owner_threeCalls : ∃ s, run threeCalls .new = some s ∧ s.liveConns = [1] ∧
    s.inst.activeConnections = 1 ∧ OneOwner s := by
  have hrun : (run threeCalls .new).map (fun s => (s.liveConns, s.inst.activeConnections)) =
      some ([1], 1) := by decide
  obtain ⟨s, hs, hlive⟩ := Option.map_eq_some_iff.1 hrun
  obtain ⟨hconns, hactive⟩ := Prod.mk.inj hlive
  exact ⟨s, hs, hconns, hactive, one_owner hs⟩

end Events.PooledConnections
