import Events.Transactions
import Events.PooledConnections
import Events.Store
import Events.Lib.Connections

/-!
# Open transactions and the pool

The connections of one database, handed out by `get_connection` and given back by `drop`, with what runs
on them: the two transactions of the crate and single statements, interleaved at every operation. The
future of a call may be dropped at any of its `await`s, and its connection goes back to the pool as it is.

* **`State`**, **`step`** — the pool of `PooledConnections` over the connections of one database.
* **`Served`** — what the engine promises: one connection at a time is inside a transaction.
* **`Settled`** — a `PooledConnection` is dropped outside a transaction, and `ROLLBACK` does not fail.
* **`pooled_calls_serial`** — then no transaction is left open, and every call has had its effect at once.
* **`dropped_append_blocks`** — otherwise nothing is committed any more, until the connection is closed.
-/

namespace Events.OpenTransactions

open Proc Program Tx PooledConnections

/-! ## The calls -/

/-- What is done on a connection. -/
inductive Call where
  /-- `EventStream::append`, which has returned before for an empty batch. -/
  | append (ids : Nat → Uuid) (span : SpanContext) (expected : ExpectedVersion)
      (events : List NewEvent) (nonempty : events ≠ []) (baseTime : OffsetDateTime)
  /-- `Catalog::replace_event_file_ranges`. -/
  | replaceEventFileRanges (ranges : List EventFileRange)
  /-- A statement outside these two. -/
  | execute (s : Stmt)

@[reducible] def Call.Ans : Call → Type
  | .append .. => AppendResult
  | .replaceEventFileRanges _ => Unit
  | .execute s => s.Ans

def Call.program : (u : Call) → ConnProgram u.Ans
  | .append ids span expected events _ baseTime =>
    appendOnConnection ids span expected events baseTime
  | .replaceEventFileRanges ranges => replaceRangesOnConnection ranges
  | .execute s => Events.execute s

abbrev calls : Calls sqlDialect := ⟨Call, EsError, Call.Ans, Call.program⟩

/-! ## Both transactions end -/

section Inside

variable {fault : DbError → Prop} {d t : Db} {α : Type}

theorem wp_inside_execute {s : Stmt} {Q : Except EsError s.Ans → Conn sqlDialect → Prop}
    (h : ∀ r t', Q r ⟨d, some t'⟩) : wp (inside fault) (Events.execute s) Q ⟨d, some t⟩ := by
  refine wp_inside_stmt fun x t' => ?_
  cases x with
  | ok a => exact h _ _
  | error e => exact h _ _

theorem wp_inside_rollbackWith {e : EsError} {Q : Except EsError α → Conn sqlDialect → Prop}
    (h : Q (.error e) ⟨d, none⟩) : wp (inside fault) (rollbackWith e) Q ⟨d, some t⟩ :=
  wp_inside_rollback h

theorem wp_inside_checkHead {expected : ExpectedVersion}
    {Q : Except EsError Int → Conn sqlDialect → Prop} (hok : ∀ v t', Q (.ok v) ⟨d, some t'⟩)
    (herr : ∀ e, Q (.error e) ⟨d, none⟩) :
    wp (inside fault) (checkHead expected) Q ⟨d, some t⟩ := by
  unfold checkHead
  rw [wp_bind, wp_attempt, wp_bind]
  refine wp_inside_execute fun r t' => ?_
  cases r with
  | error e => exact wp_inside_rollbackWith (herr _)
  | ok row =>
    simp only [wp_done]
    cases headOfRow row with
    | error e => exact wp_inside_rollbackWith (herr _)
    | ok head =>
      simp only
      cases validateExpectedVersionAgainst expected head with
      | error e => exact wp_inside_rollbackWith (herr _)
      | ok v => exact hok _ _

theorem wp_inside_insertEventsFrom {ids : Nat → Uuid} {span : SpanContext} {v : Int}
    {baseTime : OffsetDateTime} {baseSequence : Int} (i : Nat) (events : List NewEvent)
    {Q : Except EsError (List EventEnvelope) → Conn sqlDialect → Prop}
    (hok : ∀ envelopes t', (events ≠ [] → envelopes ≠ []) → Q (.ok envelopes) ⟨d, some t'⟩)
    (herr : ∀ e t', Q (.error e) ⟨d, some t'⟩) :
    wp (inside fault) (insertEventsFrom ids span v baseTime baseSequence i events) Q ⟨d, some t⟩ := by
  induction events generalizing i t Q with
  | nil => exact hok _ _ fun h => absurd rfl h
  | cons event events ih =>
    rw [insertEventsFrom]
    split
    · exact herr _ _
    · rw [wp_bind]
      refine wp_inside_execute fun r t' => ?_
      cases r with
      | error e => exact herr _ _
      | ok a =>
        simp only
        rw [wp_bind]
        exact ih (i + 1) (fun envelopes t'' _ => hok _ _ fun _ => List.cons_ne_nil _ _) herr

/-- The end of an append closes the transaction, unless nothing was inserted. -/
theorem wp_inside_finishAppend {envelopes : List EventEnvelope} (hne : envelopes ≠ []) :
    wp (inside fault) (finishAppend envelopes) (fun _ c => c.txn = none) ⟨d, some t⟩ := by
  obtain ⟨first, hfirst⟩ := Option.ne_none_iff_exists'.1 (mt List.head?_eq_none_iff.1 hne)
  obtain ⟨last, hlast⟩ := Option.ne_none_iff_exists'.1 (mt List.getLast?_eq_none_iff.1 hne)
  unfold finishAppend
  simp only [hfirst, hlast]
  rw [wp_bind, wp_attempt]
  refine wp_inside_execute fun r t' => ?_
  cases r with
  | error e => exact wp_inside_rollbackWith rfl
  | ok a =>
    show wp _ (commit.attempt.bind _) _ _
    rw [wp_bind, wp_attempt]
    exact wp_inside_commit rfl fun e => wp_inside_rollbackWith rfl

theorem wp_inside_insertRanges {ranges : List EventFileRange}
    {Q : Except EsError Unit → Conn sqlDialect → Prop} (hok : ∀ t', Q (.ok ()) ⟨d, some t'⟩)
    (herr : ∀ e, Q (.error e) ⟨d, none⟩) :
    wp (inside fault) (insertRanges ranges) Q ⟨d, some t⟩ := by
  induction ranges generalizing t with
  | nil => exact hok _
  | cons range ranges ih =>
    rw [insertRanges, wp_bind, wp_attempt]
    refine wp_inside_execute fun r t' => ?_
    cases r with
    | error e => exact wp_inside_rollbackWith (herr _)
    | ok a => exact ih

end Inside

/-- Every call is one statement, or one transaction that ends in `COMMIT` or `ROLLBACK`. -/
theorem atomic_program {fault : DbError → Prop} (u : Call) : Atomic fault u.program := by
  cases u with
  | execute s =>
    refine .statement fun x => ?_
    cases x with
    | ok a => exact ⟨_, rfl⟩
    | error e => exact ⟨_, rfl⟩
  | append ids span expected events nonempty baseTime =>
    refine .transaction (fun d => ?_) fun e => ⟨_, rfl⟩
    show wp _ ((checkHead expected).bind _) _ _
    rw [wp_bind]
    refine wp_inside_checkHead (fun v t => ?_) fun e => rfl
    simp only [insertEvents]
    rw [wp_bind, wp_attempt, wp_bind]
    refine wp_inside_execute fun r t' => ?_
    cases r with
    | error e => exact wp_inside_rollbackWith rfl
    | ok baseSequence =>
      refine wp_inside_insertEventsFrom 0 events (fun envelopes t'' hne => ?_) fun e t'' => ?_
      · exact wp_inside_finishAppend (hne nonempty)
      · exact wp_inside_rollbackWith rfl
  | replaceEventFileRanges ranges =>
    refine .transaction (fun d => ?_) fun e => ⟨_, rfl⟩
    show wp _ ((Events.execute _).attempt.bind _) _ _
    rw [wp_bind, wp_attempt]
    refine wp_inside_execute fun r t => ?_
    cases r with
    | error e => exact wp_inside_rollbackWith rfl
    | ok a =>
      show wp _ ((insertRanges ranges).bind _) _ _
      rw [wp_bind]
      refine wp_inside_insertRanges (fun t' => ?_) fun e => rfl
      show wp _ (commit.attempt.bind _) _ _
      rw [wp_bind, wp_attempt]
      exact wp_inside_commit rfl fun e => wp_inside_rollbackWith rfl

/-! ## The system -/

/-- The pool's instance with its callers, over the connections of its database. -/
structure State where
  pool : PooledConnections.State
  db : Shared calls

/-- A new instance for the database `d`. -/
def State.new (d : Db) : State := ⟨.new, .new d⟩

/-- The connection of the `PooledConnection` that caller `i` has and has not dropped. -/
def State.connOf (s : State) (i : Nat) : Option PooledConnections.Conn :=
  s.pool.callers[i]?.bind Stage.liveConn

inductive Event where
  /-- A turn in the pool. The drop of a `PooledConnection` drops the future of the call on it. -/
  | pool (e : PooledConnections.Event)
  /-- Caller `i` makes a call on its connection. -/
  | call (i : Nat) (u : Call)
  /-- The call of caller `i` performs an operation, which fails if there is a `fault`. -/
  | op (i : Nat) (fault : Option DbError)

def step : Event → State → Option State
  | .pool e, s =>
    (PooledConnections.step e s.pool).map fun pool =>
      -- a connection that nobody holds any more is closed
      ⟨pool, s.db.release (fun c => decide (0 < pool.held c)) (fun c => decide (c ∈ pool.liveConns))⟩
  | .call i u, s => (s.connOf i).bind fun c => (s.db.start c u).map fun db => { s with db := db }
  | .op i fault, s =>
    (s.connOf i).bind fun c => (s.db.operate c fault).map fun db => { s with db := db }

/-- The state after a sequence of events, if each is possible when it comes. -/
def run : List Event → State → Option State
  | [], s => some s
  | e :: es, s => (step e s).bind (run es)

/-! ## The conditions -/

/-- Whether an operation needs the lock of the only writer. -/
def needsLock (txn : Option Db) : Op sqlDialect → Bool
  | .begin => true
  | .commit | .rollback => false
  | .stmt s => txn.isNone && !s.isQuery

/-- A failure that does not come from the operation itself; "database is locked" is one. -/
def ofStorage : Option DbError → Bool
  | none | some (.storage _) => true
  | _ => false

/-- What the engine promises: only one connection at a time is inside a transaction, and the others do not
write while it is. -/
def Served : Event → State → Prop
  | .op i fault, s => ∀ c ∈ s.connOf i, ofStorage fault = true ∧
      ∀ o ∈ s.db.pending c, fault = none → needsLock (s.db.txns c) o = true →
        ∀ c' < s.pool.inst.next, c' ≠ c → s.db.txns c' = none
  | _, _ => True

/-- The condition: a `PooledConnection` is dropped outside a transaction, and `ROLLBACK` does not fail. -/
def Settled : Event → State → Prop
  | .pool (.turn i _), s => ∀ c ∈ s.connOf i, s.db.txns c = none
  | .op i fault, s => ∀ c ∈ s.connOf i, ∀ o ∈ s.db.pending c, o matches .rollback → fault = none
  | _, _ => True

/-- `P` holds of every event of a run, in the state in which it comes. -/
def Along (P : Event → State → Prop) : List Event → State → Prop
  | [], _ => True
  | e :: es, s => P e s ∧
    match step e s with
    | some s' => Along P es s'
    | none => True

instance (e : Event) (s : State) : Decidable (Served e s) :=
  match e with
  | .op i fault =>
    inferInstanceAs (Decidable (∀ c ∈ s.connOf i, ofStorage fault = true ∧
      ∀ o ∈ s.db.pending c, fault = none → needsLock (s.db.txns c) o = true →
        ∀ c' < s.pool.inst.next, c' ≠ c → s.db.txns c' = none))
  | .pool _ | .call _ _ => inferInstanceAs (Decidable True)

instance (e : Event) (s : State) : Decidable (Settled e s) :=
  match e with
  | .pool (.turn i _) => inferInstanceAs (Decidable (∀ c ∈ s.connOf i, s.db.txns c = none))
  | .op i fault =>
    inferInstanceAs (Decidable (∀ c ∈ s.connOf i, ∀ o ∈ s.db.pending c,
      o matches .rollback → fault = none))
  | .pool .call | .pool .lock | .pool .unlock | .call _ _ => inferInstanceAs (Decidable True)

instance decidableAlong {P : Event → State → Prop} [∀ e s, Decidable (P e s)] :
    (es : List Event) → (s : State) → Decidable (Along P es s)
  | [], _ => inferInstanceAs (Decidable True)
  | e :: es, s =>
    have : Decidable (match step e s with
        | some s' => Along P es s'
        | none => True) :=
      match step e s with
      | some s' => decidableAlong es s'
      | none => inferInstanceAs (Decidable True)
    inferInstanceAs (Decidable (_ ∧ _))

/-- The calls run at once, one after the other, as the operations of a store run them. -/
inductive OneByOne (d : Db) : List (Answer calls) → Db → Prop where
  | nil : OneByOne d [] d
  | snoc {answers : List (Answer calls)} {d₁ d₂ : Db} {u : Call} {r : Except EsError u.Ans}
      (before : OneByOne d answers d₁) (env : StoreEnv)
      (last : onConnection env u.program d₁ = (r, d₂)) : OneByOne d (answers ++ [⟨u, r⟩]) d₂

/-- What the pool is to guarantee about the transactions on its connections. -/
structure Isolated (d : Db) (s : State) : Prop where
  /-- A connection is outside a transaction when no call runs on it, in the cache slot for example. -/
  idle : ∀ c, s.db.running c = none → s.db.txns c = none
  /-- It is when `get_connection` returns it. -/
  handedOut : ∀ i env s' c, step (.pool (.turn i env)) s = some s' → s.connOf i = none →
    s'.connOf i = some c → s'.db.txns c = none
  /-- It is when `BEGIN IMMEDIATE` comes. -/
  begins : ∀ c, s.db.pending c = some .begin → s.db.txns c = none
  /-- The answers are those of the calls run at once, in the order in which they ended. -/
  serial : OneByOne d s.db.log s.db.db

/-! ## What is live -/

section Live

variable {s s' : PooledConnections.State} {e : PooledConnections.Event} {c : PooledConnections.Conn}

theorem mem_liveConns : c ∈ s.liveConns ↔ ∃ i : Nat, s.callers[i]? = some (Stage.live c) := by
  rw [PooledConnections.State.liveConns, List.mem_filterMap]
  constructor
  · rintro ⟨stage, hmem, hlive⟩
    obtain ⟨i, hi⟩ := List.mem_iff_getElem?.1 hmem
    cases stage <;> first | (cases hlive; exact ⟨i, hi⟩) | cases hlive
  · rintro ⟨i, hi⟩
    exact ⟨_, List.mem_of_getElem? hi, rfl⟩

theorem held_of_live (h : c ∈ s.liveConns) : 0 < s.held c := by
  have hmem : c ∈ s.conns := (liveConns_sublist s).subset h
  have hpos : 0 < s.conns.count c := List.count_pos_iff.2 hmem
  unfold PooledConnections.State.held
  omega

/-- Two callers do not hold one connection. -/
theorem caller_unique (h : Accounted s) {i j : Nat} {stage stage' : Stage}
    (hi : s.callers[i]? = some stage) (hj : s.callers[j]? = some stage')
    (hconn : stage.conn = some c) (hconn' : stage'.conn = some c) : i = j := by
  by_contra hne
  obtain ⟨hlt, rfl⟩ := List.getElem?_eq_some_iff.1 hi
  have hsplit : s.callers = s.callers.take i ++ s.callers[i] :: s.callers.drop (i + 1) := by simp
  have honce := h.once c
  unfold PooledConnections.State.held PooledConnections.State.conns at honce
  rw [hsplit, count_conns, hconn] at honce
  have hmem : stage' ∈ s.callers.take i ++ s.callers.drop (i + 1) := by
    rw [List.mem_append]
    rcases Nat.lt_or_gt_of_ne hne with hij | hji
    · right
      refine List.mem_of_getElem? (i := j - (i + 1)) ?_
      rw [List.getElem?_drop, Nat.add_sub_cancel' hij]
      exact hj
    · left
      refine List.mem_of_getElem? (i := j) ?_
      rw [List.getElem?_take_of_lt hji]
      exact hj
  have hcount : 0 < ((s.callers.take i ++ s.callers.drop (i + 1)).filterMap Stage.conn).count c :=
    List.count_pos_iff.2 (List.mem_filterMap.2 ⟨stage', hmem, hconn'⟩)
  simp only [Option.toList_some, List.count_singleton_self] at honce
  omega

/-- A turn of one caller leaves the others where they are. -/
theorem callers_turn {i j : Nat} {env : TurnEnv} (h : PooledConnections.step (.turn i env) s = some s')
    (hij : i ≠ j) : s'.callers[j]? = s.callers[j]? := by
  simp only [PooledConnections.step] at h
  split at h
  · cases h
  · obtain ⟨⟨inst', stage'⟩, -, rfl⟩ := Option.map_eq_some_iff.1 h
    exact List.getElem?_set_ne hij

/-- A connection stays live until it is dropped. -/
theorem live_step (h : PooledConnections.step e s = some s') (hlive : c ∈ s.liveConns)
    (hkeep : ∀ i env, e = .turn i env → s.callers[i]? ≠ some (.live c)) : c ∈ s'.liveConns := by
  obtain ⟨j, hj⟩ := mem_liveConns.1 hlive
  refine mem_liveConns.2 ⟨j, ?_⟩
  cases e with
  | call =>
    cases h
    exact (List.getElem?_append_left (List.getElem?_eq_some_iff.1 hj).1).trans hj
  | turn i env =>
    have hij : i ≠ j := by
      rintro rfl
      exact hkeep i env rfl hj
    exact (callers_turn h hij).trans hj
  | lock | unlock =>
    simp only [PooledConnections.step] at h
    split at h
    · cases h
      exact hj
    · cases h

end Live

/-! ## While every future is dropped outside its transaction -/

/-- The pool's accounts, with transactions only where calls run and calls only where connections live. -/
structure Inv (d : Db) (s : State) : Prop where
  accounted : Accounted s.pool
  tidy : Tidy isStorageFault d s.db
  used : ∀ c, s.db.running c ≠ none → c ∈ s.pool.liveConns

section Inv

variable {d : Db} {s s' : State} {i : Nat} {c : PooledConnections.Conn} {f : Option DbError}

theorem inv_new : Inv d (.new d) where
  accounted := accounted_new
  tidy := tidy_new
  used := fun _ h => absurd rfl h

theorem connOf_eq_some : s.connOf i = some c ↔ s.pool.callers[i]? = some (Stage.live c) := by
  unfold State.connOf
  constructor
  · intro h
    obtain ⟨stage, hstage, hlive⟩ := Option.bind_eq_some_iff.1 h
    cases stage <;> first | (cases hlive; exact hstage) | cases hlive
  · intro h
    rw [h]
    rfl

theorem live_of_connOf (h : s.connOf i = some c) : c ∈ s.pool.liveConns :=
  mem_liveConns.2 ⟨i, connOf_eq_some.1 h⟩

theorem Inv.live_of_open (h : Inv d s) (hopen : s.db.txns c ≠ none) : c ∈ s.pool.liveConns := by
  refine h.used c fun hnone => hopen (h.tidy.idle hnone)

theorem isStorageFault_of {e : DbError} (h : ofStorage (some e) = true) : isStorageFault e := by
  cases e with
  | storage message => exact ⟨message, rfl⟩
  | _ => cases h

/-- What does not need the lock leaves what is durable as it is; `COMMIT` has the lock. -/
theorem needsLock_of_writes {o : Op sqlDialect} {k : Tx.Conn sqlDialect}
    (h : o = .begin ∨ o ≠ .commit ∧ (Tx.Conn.step o none k).2.db ≠ k.db) :
    needsLock k.txn o = true := by
  rcases h with rfl | ⟨ho, h⟩
  · rfl
  obtain ⟨db, txn⟩ := k
  cases o with
  | begin => rfl
  | commit => exact absurd rfl ho
  | rollback =>
    cases txn with
    | none => exact absurd rfl h
    | some t => exact absurd rfl h
  | stmt s =>
    cases txn with
    | some t =>
      refine absurd ?_ h
      simp only [Tx.Conn.step]
      split <;> rfl
    | none =>
      cases hquery : s.isQuery with
      | false => simp [needsLock, hquery]
      | true =>
        refine absurd ?_ h
        simp only [Tx.Conn.step, Tx.Conn.view, Tx.Conn.write]
        split
        · rename_i a d' hex
          exact Stmt.exec_query hquery hex
        · rfl

/-- The engine's promise for the connections of the pool, as the library asks for it. -/
theorem serves_of (hserved : Served (.op i f) s) (hconn : s.connOf i = some c)
    (hmade : ∀ c', s.pool.inst.next ≤ c' → s.db.txns c' = none) :
    s.db.Serves isStorageFault c f := by
  obtain ⟨hstorage, hlock⟩ := hserved c hconn
  refine ⟨?_, fun o ho hf hwrites c' hc' => ?_⟩
  · rintro e rfl
    exact isStorageFault_of hstorage
  · rcases Nat.lt_or_ge c' s.pool.inst.next with hlt | hge
    · exact hlock o ho hf (needsLock_of_writes hwrites) c' hlt hc'
    · exact hmade c' hge

/-- **Every event keeps the invariant.** -/
theorem Inv.step {e : Event} (h : Inv d s) (hserved : Served e s) (hsettled : Settled e s)
    (hstep : step e s = some s') : Inv d s' := by
  cases e with
  | pool e =>
    obtain ⟨pool, hpool, rfl⟩ := Option.map_eq_some_iff.1 hstep
    refine ⟨h.accounted.step hpool, h.tidy.release fun c hopen => ?_, fun c hrun => ?_⟩
    · have hlive : c ∈ pool.liveConns := by
        refine live_step hpool (h.live_of_open hopen) ?_
        rintro i env rfl hi
        exact hopen (hsettled c (connOf_eq_some.2 hi))
      exact ⟨decide_eq_true (held_of_live hlive), decide_eq_true hlive⟩
    · by_contra hlive
      simp [Shared.release, hlive] at hrun
  | call i u =>
    obtain ⟨c, hc, hmap⟩ := Option.bind_eq_some_iff.1 hstep
    obtain ⟨db, hstart, rfl⟩ := Option.map_eq_some_iff.1 hmap
    refine ⟨h.accounted, h.tidy.start hstart, fun c' hrun => ?_⟩
    by_cases hcc : c' = c
    · rw [hcc]
      exact live_of_connOf hc
    · refine h.used c' fun hnone => hrun ?_
      rw [← hnone]
      exact Shared.running_start hstart hcc
  | op i f =>
    obtain ⟨c, hc, hmap⟩ := Option.bind_eq_some_iff.1 hstep
    obtain ⟨db, hop, rfl⟩ := Option.map_eq_some_iff.1 hmap
    -- every other connection is idle, or it would be held by nobody
    have hserves : s.db.Serves isStorageFault c f := by
      refine serves_of hserved hc fun c' hc' => ?_
      by_contra hopen
      have hheld := held_of_live (h.live_of_open hopen)
      rw [h.accounted.made c' hc'] at hheld
      exact Nat.lt_irrefl 0 hheld
    have hrollback : s.db.pending c = some .rollback → f = none := fun ho => hsettled c hc _ ho rfl
    refine ⟨h.accounted, h.tidy.operate atomic_program hserves hrollback hop, fun c' hrun => ?_⟩
    by_cases hcc : c' = c
    · rw [hcc]
      exact live_of_connOf hc
    · refine h.used c' fun hnone => hrun ?_
      rw [← hnone]
      exact Shared.running_operate hop hcc

theorem Inv.run {es : List Event} (h : Inv d s) (hserved : Along Served es s)
    (hsettled : Along Settled es s) (hrun : run es s = some s') : Inv d s' := by
  induction es generalizing s with
  | nil =>
    cases hrun
    exact h
  | cons e es ih =>
    obtain ⟨s₁, hstep, hrest⟩ := Option.bind_eq_some_iff.1 hrun
    obtain ⟨hs, hserved⟩ := hserved
    obtain ⟨ht, hsettled⟩ := hsettled
    rw [hstep] at hserved hsettled
    exact ih (h.step hs ht hstep) hserved hsettled hrest

end Inv

/-! ## Serial answers -/

section Serial

variable {d d' : Db} {s s' : State}

theorem oneByOne_of_serial {answers : List (Answer calls)} (h : Serial isStorageFault d answers d') :
    OneByOne d answers d' := by
  induction h with
  | nil => exact .nil
  | snoc _ last ih =>
    have hstorage : ∀ (o : Op sqlDialect) e k, (faulty isStorageFault).assume o e k →
        ∃ message : Option String, message.map DbError.storage = e := by
      intro o e k he
      cases e with
      | none => exact ⟨none, rfl⟩
      | some e =>
        obtain ⟨message, rfl⟩ := he e rfl
        exact ⟨some message, rfl⟩
    obtain ⟨fault, hfault⟩ := last.exists_eval _ hstorage 0
    refine ih.snoc { statementFault := fault } ?_
    unfold onConnection
    rw [hfault]

/-- What `get_connection` returns is nobody else's. -/
theorem Inv.isolated (h : Inv d s) : Isolated d s where
  idle := fun _ hrun => h.tidy.idle hrun
  handedOut := by
    intro i env s' c hstep hnone hc
    have hsettled : Settled (.pool (.turn i env)) s := by
      intro c' hc'
      rw [hnone] at hc'
      cases hc'
    have h' : Inv d s' := h.step (e := .pool (.turn i env)) trivial hsettled hstep
    refine h'.tidy.idle ?_
    obtain ⟨pool, hpool, rfl⟩ := Option.map_eq_some_iff.1 hstep
    have hrun : s.db.running c = none := by
      by_contra hrun
      obtain ⟨j, hj⟩ := mem_liveConns.1 (h.used c hrun)
      have hij : i ≠ j := by
        rintro rfl
        rw [connOf_eq_some.2 hj] at hnone
        cases hnone
      exact hij (caller_unique h'.accounted (connOf_eq_some.1 hc) ((callers_turn hpool hij).trans hj)
        rfl rfl)
    simp [Shared.release, hrun]
  begins := fun _ hbegin => h.tidy.begins hbegin
  serial := oneByOne_of_serial h.tidy.serial

end Serial

/-- **No transaction is left open on a pooled connection**, in any interleaving of the calls on one
database in which every future is dropped outside its transaction and `ROLLBACK` does not fail. -/
theorem pooled_calls_serial {d : Db} {es : List Event} {s : State} (hrun : run es (.new d) = some s)
    (hserved : Along Served es (.new d)) (hsettled : Along Settled es (.new d)) : Isolated d s :=
  (inv_new.run hserved hsettled hrun).isolated

/-- An event file as `create_partition_db` leaves it. -/
def emptyFile : Db := { events := some [], head := some (some ⟨0, none⟩) }

def note : NewEvent := ⟨['n', 'o', 't', 'e'], .null, none, .none, none, ['u', '1'], .user⟩

def appendNote : Call :=
  .append (fun i => ⟨BitVec.ofNat 128 i⟩) {} .any [note] (List.cons_ne_nil _ _) .unixEpoch

def readAll : Call := .execute (.queryEventsAfterVersion 0 10)

/-- A second caller reads in the middle of an append, and a third one reuses the append's connection. -/
def readBetween : List Event :=
  [.pool .call] ++ List.replicate 7 (.pool (.turn 0 {})) ++ [.pool .call] ++
    List.replicate 7 (.pool (.turn 1 {})) ++ [.call 0 appendNote] ++ List.replicate 4 (.op 0 none) ++
    [.call 1 readAll, .op 1 none] ++ List.replicate 2 (.op 0 none) ++
    List.replicate 5 (.pool (.turn 0 {})) ++ [.pool .call] ++ List.replicate 6 (.pool (.turn 2 {})) ++
    [.call 2 readAll, .op 2 none]

theorem pooled_calls_serial_readBetween : ∃ s, run readBetween (.new emptyFile) = some s ∧
    s.connOf 2 = some 0 ∧ s.db.log.length = 3 ∧ s.db.db.rows.length = 1 ∧ Isolated emptyFile s := by
  have hrun : ∃ s ∈ run readBetween (.new emptyFile),
      s.connOf 2 = some 0 ∧ s.db.log.length = 3 ∧ s.db.db.rows.length = 1 := by decide +kernel
  have hserved : Along Served readBetween (.new emptyFile) := by decide +kernel
  have hsettled : Along Settled readBetween (.new emptyFile) := by decide +kernel
  obtain ⟨s, hs, hconn, hlog, hrows⟩ := hrun
  exact ⟨s, hs, hconn, hlog, hrows, pooled_calls_serial hs hserved hsettled⟩

/-! ## After a future was dropped inside its transaction -/

section Held

variable {s s' : PooledConnections.State} {e : PooledConnections.Event} {c : PooledConnections.Conn}

/-- A connection that exists is not taken up by anybody but those who hold it. -/
theorem held_step (h : PooledConnections.step e s = some s') (hmade : c < s.inst.next) :
    s'.held c ≤ s.held c ∧ s.inst.next ≤ s'.inst.next := by
  cases e with
  | call =>
    cases h
    refine ⟨?_, Nat.le_refl _⟩
    unfold PooledConnections.State.held PooledConnections.State.conns
    rw [count_conns, List.append_nil]
    simp [Stage.conn]
  | turn i env =>
    simp only [PooledConnections.step] at h
    split at h
    · cases h
    · rename_i stage hstage
      obtain ⟨⟨inst', stage'⟩, hturn, rfl⟩ := Option.map_eq_some_iff.1 h
      obtain ⟨hi, rfl⟩ := List.getElem?_eq_some_iff.1 hstage
      have hsplit : s.callers = s.callers.take i ++ s.callers[i] :: s.callers.drop (i + 1) := by
        simp
      have hset : s.callers.set i stage' = s.callers.take i ++ stage' :: s.callers.drop (i + 1) :=
        List.set_eq_take_append_cons_drop ▸ if_pos hi
      have hturned := turned_of_turn hturn
      refine ⟨?_, hturned.next⟩
      -- the one caller that moves holds the connection no more often than before
      have hle : holds inst' stage' c ≤ holds s.inst s.callers[i] c := by
        rcases hturned.held c with hle | ⟨rfl, -⟩
        · exact hle
        · exact absurd hmade (Nat.lt_irrefl _)
      have hcount : (s.callers.filterMap Stage.conn).count c = s.callers[i].conn.toList.count c +
          ((s.callers.take i ++ s.callers.drop (i + 1)).filterMap Stage.conn).count c := by
        rw [← count_conns, ← hsplit]
      unfold holds at hle
      unfold PooledConnections.State.held PooledConnections.State.conns
      simp only [hset, hcount, count_conns]
      omega
  | lock | unlock =>
    simp only [PooledConnections.step] at h
    split at h
    · cases h
      exact ⟨Nat.le_refl _, Nat.le_refl _⟩
    · cases h

end Held

/-- A transaction is open on the connection `c` of the pool, and nobody is going to end it. -/
structure Stranded (c : PooledConnections.Conn) (s : State) : Prop where
  accounted : Accounted s.pool
  made : c < s.pool.inst.next
  abandoned : Abandoned c s.db

/-- What follows for the later states `s'` of a run: nothing becomes durable, the transaction stays open,
and every append and every replacement of the ranges fails. -/
structure Stuck (c : PooledConnections.Conn) (s s' : State) : Prop where
  durable : s'.db.db = s.db.db
  opened : s'.db.txns c ≠ none
  answers : ∃ answers, s'.db.log = s.db.log ++ answers ∧
    ∀ a ∈ answers, (∃ e, a.2 = .error e) ∨ ∃ s, a.1 = .execute s

section Stranded

variable {s s' : State} {c : PooledConnections.Conn}

theorem Stranded.stuck (h : Stranded c s) : Stuck c s s :=
  ⟨rfl, h.abandoned.opened, [], (List.append_nil _).symm, fun _ ha => absurd ha List.not_mem_nil⟩

theorem Stuck.trans {s'' : State} (h : Stuck c s s') (h' : Stuck c s' s'') : Stuck c s s'' := by
  obtain ⟨answers, hlog, hanswers⟩ := h.answers
  obtain ⟨answers', hlog', hanswers'⟩ := h'.answers
  refine ⟨h'.durable.trans h.durable, h'.opened, answers ++ answers', ?_, fun a ha => ?_⟩
  · rw [hlog', hlog, List.append_assoc]
  · exact (List.mem_append.1 ha).elim (hanswers a) (hanswers' a)

/-- Only a single statement gets an answer other than an error. -/
theorem execute_of_unbegun {a : Answer calls} (h : a.Unbegun) :
    (∃ e, a.2 = .error e) ∨ ∃ s, a.1 = .execute s := by
  refine h.imp_right ?_
  obtain ⟨u, r⟩ := a
  rintro ⟨s, k, hprogram⟩
  cases u with
  | execute s => exact ⟨s, rfl⟩
  | append ids span expected events nonempty baseTime => cases hprogram
  | replaceEventFileRanges ranges => cases hprogram

theorem held_le {e : Event} (h : step e s = some s') (hmade : c < s.pool.inst.next) :
    s'.pool.held c ≤ s.pool.held c ∧ s.pool.inst.next ≤ s'.pool.inst.next := by
  cases e with
  | pool e =>
    obtain ⟨pool, hpool, rfl⟩ := Option.map_eq_some_iff.1 h
    exact held_step hpool hmade
  | call i u =>
    obtain ⟨c, -, hmap⟩ := Option.bind_eq_some_iff.1 h
    obtain ⟨db, -, rfl⟩ := Option.map_eq_some_iff.1 hmap
    exact ⟨Nat.le_refl _, Nat.le_refl _⟩
  | op i f =>
    obtain ⟨c, -, hmap⟩ := Option.bind_eq_some_iff.1 h
    obtain ⟨db, -, rfl⟩ := Option.map_eq_some_iff.1 hmap
    exact ⟨Nat.le_refl _, Nat.le_refl _⟩

theorem held_run {es : List Event} (h : run es s = some s') (hmade : c < s.pool.inst.next) :
    s'.pool.held c ≤ s.pool.held c := by
  induction es generalizing s with
  | nil =>
    cases h
    exact Nat.le_refl _
  | cons e es ih =>
    obtain ⟨s₁, hstep, hrest⟩ := Option.bind_eq_some_iff.1 h
    obtain ⟨hle, hnext⟩ := held_le hstep hmade
    exact (ih hrest (hmade.trans_le hnext)).trans hle

/-- **Every event leaves the connection stranded**, as long as somebody holds it. -/
theorem Stranded.step {e : Event} (h : Stranded c s) (hserved : Served e s)
    (hstep : step e s = some s') (hheld : 0 < s'.pool.held c) : Stranded c s' ∧ Stuck c s s' := by
  cases e with
  | pool e =>
    obtain ⟨pool, hpool, rfl⟩ := Option.map_eq_some_iff.1 hstep
    have habandoned : Abandoned c (s.db.release (fun c => decide (0 < pool.held c))
        (fun c => decide (c ∈ pool.liveConns))) := h.abandoned.release (decide_eq_true hheld)
    have hmade := h.made.trans_le (held_step hpool h.made).2
    exact ⟨⟨h.accounted.step hpool, hmade, habandoned⟩, rfl, habandoned.opened, [],
      (List.append_nil _).symm, fun _ ha => absurd ha List.not_mem_nil⟩
  | call i u =>
    obtain ⟨c', hc', hmap⟩ := Option.bind_eq_some_iff.1 hstep
    obtain ⟨db, hstart, rfl⟩ := Option.map_eq_some_iff.1 hmap
    have habandoned := h.abandoned.start hstart
    obtain ⟨hdb, hlog⟩ := Shared.start_same hstart
    refine ⟨⟨h.accounted, h.made, habandoned⟩, hdb, habandoned.opened, [], ?_,
      fun _ ha => absurd ha List.not_mem_nil⟩
    rw [List.append_nil]
    exact hlog
  | op i f =>
    obtain ⟨c', hc', hmap⟩ := Option.bind_eq_some_iff.1 hstep
    obtain ⟨db, hop, rfl⟩ := Option.map_eq_some_iff.1 hmap
    have hserves : s.db.Serves isStorageFault c' f := by
      refine serves_of hserved hc' fun c₁ hc₁ => h.abandoned.others c₁ ?_
      exact (h.made.trans_le hc₁).ne'
    obtain ⟨habandoned, hdb, a, ha, hlog⟩ := h.abandoned.operate atomic_program hserves hop
    refine ⟨⟨h.accounted, h.made, habandoned⟩, hdb, habandoned.opened, [a], hlog, fun b hb => ?_⟩
    rw [List.mem_singleton.1 hb]
    exact execute_of_unbegun ha

theorem Stranded.run {es : List Event} (h : Stranded c s) (hserved : Along Served es s)
    (hrun : run es s = some s') (hheld : 0 < s'.pool.held c) : Stuck c s s' := by
  induction es generalizing s with
  | nil =>
    cases hrun
    exact h.stuck
  | cons e es ih =>
    obtain ⟨s₁, hstep, hrest⟩ := Option.bind_eq_some_iff.1 hrun
    obtain ⟨hs, hserved⟩ := hserved
    rw [hstep] at hserved
    have hmade := h.made.trans_le (held_le hstep h.made).2
    obtain ⟨hstranded, hstuck⟩ := h.step hs hstep (hheld.trans_le (held_run hrest hmade))
    exact hstuck.trans (ih hstranded hserved hrest)

end Stranded

/-- The drop of a future inside its transaction strands the connection, if somebody keeps it. -/
theorem stranded_of_drop {d : Db} {s s' : State} {i : Nat} {env : TurnEnv} {c : PooledConnections.Conn}
    (h : Inv d s) (hc : s.connOf i = some c) (hopen : s.db.txns c ≠ none)
    (hdrop : step (.pool (.turn i env)) s = some s') :
    Stranded c s' ∧ s'.db.db = s.db.db ∧ s'.db.log = s.db.log := by
  obtain ⟨pool, hpool, rfl⟩ := Option.map_eq_some_iff.1 hdrop
  have hi := connOf_eq_some.1 hc
  have hpool' : pool = ⟨s.pool.inst, s.pool.callers.set i (.dropping c)⟩ := by
    simp only [PooledConnections.step, hi, PooledConnections.turn] at hpool
    exact (Option.some.inj hpool).symm
  have haccounted := h.accounted.step hpool
  have hdropping : pool.callers[i]? = some (.dropping c) := by
    rw [hpool', List.getElem?_set_self (List.getElem?_eq_some_iff.1 hi).1]
  have hheld : 0 < pool.held c := by
    have hmem : c ∈ pool.conns :=
      List.mem_filterMap.2 ⟨_, List.mem_of_getElem? hdropping, rfl⟩
    have hpos : 0 < pool.conns.count c := List.count_pos_iff.2 hmem
    unfold PooledConnections.State.held
    omega
  have hlive : c ∉ pool.liveConns := by
    intro hlive
    obtain ⟨j, hj⟩ := mem_liveConns.1 hlive
    obtain rfl := caller_unique haccounted hdropping hj rfl rfl
    rw [hdropping] at hj
    cases hj
  refine ⟨⟨haccounted, ?_, h.tidy.abandon hopen (decide_eq_true hheld) (decide_eq_false hlive)⟩,
    rfl, rfl⟩
  by_contra hnext
  have hnone := haccounted.made c (Nat.le_of_not_lt hnext)
  omega

/-- **A future that is dropped inside its transaction blocks the database**: in any interleaving of later
calls nothing becomes durable and every append fails, as long as the pool or a caller has the
connection. -/
theorem dropped_append_blocks {d : Db} {es es' : List Event} {s s₁ s' : State} {i : Nat} {env : TurnEnv}
    {c : PooledConnections.Conn} (hrun : run es (.new d) = some s) (hserved : Along Served es (.new d))
    (hsettled : Along Settled es (.new d)) (hc : s.connOf i = some c) (hopen : s.db.txns c ≠ none)
    (hdrop : step (.pool (.turn i env)) s = some s₁) (hrun' : run es' s₁ = some s')
    (hserved' : Along Served es' s₁) (hheld : 0 < s'.pool.held c) : Stuck c s s' := by
  obtain ⟨hstranded, hdb, hlog⟩ := stranded_of_drop (inv_new.run hserved hsettled hrun) hc hopen hdrop
  obtain ⟨hdurable, hopened, answers, hanswers, hall⟩ := hstranded.run hserved' hrun' hheld
  exact ⟨hdurable.trans hdb, hopened, answers, by rw [hanswers, hlog], hall⟩

/-- The append up to its insert. -/
def beginAppend : List Event :=
  [.pool .call] ++ List.replicate 7 (.pool (.turn 0 {})) ++ [.call 0 appendNote] ++
    List.replicate 4 (.op 0 none)

/-- Its connection goes back to the pool and to the next caller, who appends and reads. -/
def reuse : List Event :=
  List.replicate 4 (.pool (.turn 0 {})) ++ [.pool .call] ++ List.replicate 6 (.pool (.turn 1 {})) ++
    [.call 1 appendNote, .op 1 none, .call 1 readAll, .op 1 none]

theorem dropped_append_blocks_reuse : ∃ s ∈ run beginAppend (.new emptyFile),
    ∃ s₁ ∈ step (.pool (.turn 0 {})) s, ∃ s' ∈ run reuse s₁,
      s'.connOf 1 = some 0 ∧ s'.db.log.length = 2 ∧ s'.db.db.rows = [] ∧ Stuck 0 s s' := by
  have hserved : Along Served beginAppend (.new emptyFile) := by decide +kernel
  have hsettled : Along Settled beginAppend (.new emptyFile) := by decide +kernel
  have hrun : ∃ s ∈ run beginAppend (.new emptyFile), ∃ s₁ ∈ step (.pool (.turn 0 {})) s,
      ∃ s' ∈ run reuse s₁, s.connOf 0 = some 0 ∧ s.db.txns 0 ≠ none ∧ Along Served reuse s₁ ∧
        0 < s'.pool.held 0 ∧ s'.connOf 1 = some 0 ∧ s'.db.log.length = 2 ∧ s'.db.db.rows = [] := by
    decide +kernel
  obtain ⟨s, hs, s₁, hdrop, s', hs', hc, hopen, hserved', hheld, hconn, hlog, hrows⟩ := hrun
  exact ⟨s, hs, s₁, hdrop, s', hs', hconn, hlog, hrows,
    dropped_append_blocks hs hserved hsettled hc hopen hdrop hs' hserved' hheld⟩

end Events.OpenTransactions
