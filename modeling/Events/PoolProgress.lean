import Events.Lib.LockOrder
import Events.SharedPool

/-!
# The progress of the shared pool

No interleaving of the calls of `Events.SharedPool` ends in a deadlock, and every call ends.

* **`ascending`** — the locks are taken in one order, the cache before the instances.
* **`turn_isSome`** — whoever waits for no lock that is taken has a turn.
* **`Counted.turnsLeft_step`** — every step but a new call is one of a number of turns left.
* **`never_deadlocks`** — while a call or a drop is in progress one of them can go on, and all of them
  end.
-/

namespace Events.SharedPool

open Pool (Path Arc Candidate accessLe fullPath remove)

/-! ## Nobody is blocked for good -/

section Steps

variable {maxCached i : Nat} {root : Path} {s : State} {c : Caller}

/-- The locks of the pool: that of the cache, and one for each instance. -/
inductive Lock where
  | cache
  | instance (a : Arc)

/-- The cache is locked before any instance. -/
def Lock.rank : Lock → Nat
  | cache => 0
  | .instance _ => 1

namespace Caller

def Holds (c : Caller) : Lock → Prop
  | .cache => c.reads = true ∨ c.writes = true
  | .instance a => c.locked = some a

/-- The lock that the next turn takes. -/
def Waits (c : Caller) : Lock → Prop
  | .cache => c.stage = .looking ∨ ∃ a, c.stage = .inserting a
  | .instance a => c.stage.needs = some a

end Caller

/-- Nobody has the lock. -/
def State.Free (s : State) (l : Lock) : Prop := ∀ c ∈ s.callers, ¬ c.Holds l

/-- The callers of a moment and their locks. -/
def lockOrder (s : State) : LockOrder Nat Lock where
  busy i := ∃ c, s.callers[i]? = some c ∧ c.busy = true
  holds i l := ∃ c, s.callers[i]? = some c ∧ c.Holds l
  waits i l := ∃ c, s.callers[i]? = some c ∧ c.Waits l

/-- Only a call or a drop in progress has a lock. -/
theorem busy_of_holds {l : Lock} (h : c.Holds l) : c.busy = true := by
  obtain ⟨dbPath, stage, gone⟩ := c
  cases gone with
  | true =>
    cases l with
    | cache => simp [Caller.Holds, Caller.reads, Caller.writes] at h
    | «instance» a => simp [Caller.Holds, Caller.locked] at h
  | false =>
    cases l with
    | cache => cases stage <;> simp_all [Caller.Holds, Caller.reads, Caller.writes, Caller.busy,
        Stage.reads, Stage.writes, Stage.atRest]
    | «instance» a =>
      cases stage with
      | connecting b st =>
        cases st <;> simp_all [Caller.Holds, Caller.locked, Caller.busy, Stage.locked, hasLock,
          Stage.atRest, PooledConnections.Stage.atRest]
      | _ => simp_all [Caller.Holds, Caller.locked, Caller.busy, Stage.locked, Stage.atRest]

/-- Whoever has the cache locked waits for instances only, and whoever has an instance locked waits for
nothing. -/
theorem rank_lt {l l' : Lock} (h : c.Holds l) (h' : c.Waits l') : l.rank < l'.rank := by
  obtain ⟨dbPath, stage, gone⟩ := c
  cases l with
  | cache =>
    cases l' with
    | cache =>
      rcases h' with rfl | ⟨a, rfl⟩
      · simp [Caller.Holds, Caller.reads, Caller.writes, Stage.reads, Stage.writes] at h
      · simp [Caller.Holds, Caller.reads, Caller.writes, Stage.reads, Stage.writes] at h
    | «instance» a => exact Nat.zero_lt_one
  | «instance» a =>
    have hlocked : stage.locked = some a := by
      cases gone with
      | true => cases h
      | false => exact h
    -- between a lock and its release there is no other lock to wait for
    have hnot : ¬ Caller.Waits ⟨dbPath, stage, gone⟩ l' := by
      cases l' with
      | cache =>
        rintro (rfl | ⟨b, rfl⟩)
        · cases hlocked
        · cases hlocked
      | «instance» b =>
        intro hneeds
        cases stage with
        | connecting d st =>
          cases st <;> simp_all [Caller.Waits, Stage.locked, Stage.needs, hasLock, needsLock]
        | _ => simp_all [Caller.Waits, Stage.locked, Stage.needs]
    exact absurd h' hnot

/-- **The locks are taken in one order.** -/
theorem ascending (s : State) : (lockOrder s).Ascending Lock.rank where
  busy i l := by
    rintro ⟨c, hc, hholds⟩
    exact ⟨c, hc, busy_of_holds hholds⟩
  below i l l' := by
    rintro ⟨c, hc, hholds⟩ ⟨d, hd, hwaits⟩
    obtain rfl : c = d := Option.some.inj (hc.symm.trans hd)
    exact rank_lt hholds hwaits

theorem Locking.unlocked (h : Locking s) {a : Arc} (hfree : s.Free (.instance a)) :
    (s.pool.instances a).lock = none := by
  by_contra hlock
  obtain ⟨i, c, hc, hlocked⟩ := h.holder a hlock
  exact hfree c (List.mem_of_getElem? hc) hlocked

theorem readable_of_free (h : s.Free .cache) : s.readable = true := by
  refine List.all_eq_true.2 fun c hc => ?_
  cases hw : c.writes with
  | false => rfl
  | true => exact absurd (.inr hw) (h c hc)

theorem writable_of_free (h : s.Free .cache) : s.writable = true := by
  refine List.all_eq_true.2 fun c hc => ?_
  have hnot := h c hc
  simp only [Caller.Holds, not_or, Bool.not_eq_true] at hnot
  rw [hnot.1, hnot.2]
  rfl

/-- A call on an instance goes on unless it waits for the lock. -/
theorem turn_isSome_of {env : PooledConnections.TurnEnv} {inst : PooledConnections.Instance}
    {st : PooledConnections.Stage} (hbusy : st.atRest = false)
    (hfree : needsLock st = true → inst.lock = none) :
    (PooledConnections.turn i env inst st).isSome = true := by
  cases st with
  | called | waiting => simp [PooledConnections.turn, hfree rfl]
  | counted =>
    simp only [PooledConnections.turn]
    split
    · rfl
    · split
      · rfl
      · rfl
  | dropping conn =>
    simp only [PooledConnections.turn]
    split
    · rfl
    · rfl
  | live conn | done => cases hbusy
  | _ => rfl

/-- **Whoever waits for no lock that is taken has a turn.** -/
theorem turn_isSome (h : Locking s) (hc : s.callers[i]? = some c) (hbusy : c.busy = true)
    (hfree : ∀ l, c.Waits l → s.Free l) (env : TurnEnv) :
    (step maxCached root (.turn i env) s).isSome = true := by
  obtain ⟨dbPath, stage, gone⟩ := c
  obtain ⟨rfl, hrest⟩ : gone = false ∧ stage.atRest = false := by simpa [Caller.busy] using hbusy
  have hlock : ∀ a, stage.needs = some a → (s.pool.instances a).lock = none :=
    fun a ha => h.unlocked (hfree (.instance a) ha)
  simp only [step, hc, Bool.false_eq_true, if_false, Option.isSome_map]
  -- the stages that wait, by what they wait for; the others can always go on
  cases stage with
  | looking =>
    have hreadable := readable_of_free (hfree .cache (.inl rfl))
    simp [turn, hreadable]
  | inserting a =>
    have hwritable := writable_of_free (hfree .cache (.inr ⟨a, rfl⟩))
    simp [turn, hwritable]
  | touching a => simp [turn, hlock a rfl]
  | collecting a databases instances =>
    cases databases with
    | nil => rfl
    | cons d databases => simp [turn, hlock d.2 rfl]
  | evicting a instances evicted targetEvictions =>
    cases instances with
    | nil => rfl
    | cons c instances =>
      simp only [turn]
      split
      · rfl
      · rename_i hmore
        have hneeds : Stage.needs (.evicting a (c :: instances) evicted targetEvictions) = some c.arc :=
          if_neg hmore
        simp [hlock c.arc hneeds]
  | connecting a st =>
    simp only [turn, Option.isSome_map]
    refine turn_isSome_of hrest fun hneeds => hlock a ?_
    simp [Stage.needs, hneeds]
  | failed e => cases hrest
  | called | searching | building | checking a | testing a c instances evicted targetEvictions =>
    simp only [turn]
    repeat' split
    all_goals rfl
  | stamping a | found a | reading a d databases instances | caching a | cached a => rfl

end Steps

/-! ## Every call ends -/

section Ends

variable {maxCached i n : Nat} {root path : Path} {env : TurnEnv} {readable writable : Bool}
  {s s' : Shared} {stage stage' : Stage}

/-- The turns that a call on an instance has left, with those of the drop. -/
def turnsLeft : PooledConnections.Stage → Nat
  | .called => 16
  | .cloning => 15
  | .waiting => 14
  | .locked => 13
  | .counted => 12
  | .connected _ _ => 11
  | .configuring _ => 10
  | .live _ => 9
  | .dropping _ => 8
  | .returning _ => 7
  | .returned => 6
  | .releasing => 5
  | .refused => 2
  | .leaving | .misconfigured _ => 1
  | .done => 0

/-- The turns that a call has left at most, if the cache has no more than `n` databases. -/
def Stage.turnsLeft (n : Nat) : Stage → Nat
  | called => 26 + 4 * n
  | looking => 25 + 4 * n
  | searching => 24 + 4 * n
  | touching _ => 19
  | stamping _ => 18
  | found _ => 17
  | building => 23 + 4 * n
  | inserting _ => 22 + 4 * n
  | checking _ => 21 + 4 * n
  | collecting _ databases instances => 20 + 4 * databases.length + 2 * instances.length
  | reading _ _ databases instances => 23 + 4 * databases.length + 2 * instances.length
  | evicting _ instances _ _ => 19 + 2 * instances.length
  | testing _ _ instances _ _ => 20 + 2 * instances.length
  | caching _ => 18
  | cached _ => 17
  | connecting _ stage => SharedPool.turnsLeft stage
  | failed _ => 0

theorem turnsLeft_of_turn {env : PooledConnections.TurnEnv}
    {inst inst' : PooledConnections.Instance} {stage stage' : PooledConnections.Stage}
    (h : PooledConnections.turn i env inst stage = some (inst', stage')) :
    turnsLeft stage' < turnsLeft stage := by
  cases stage with
  | done => cases h
  | called | waiting | counted | dropping conn =>
    simp only [PooledConnections.turn] at h
    repeat' split at h
    all_goals cases h
    all_goals simp [turnsLeft]
  | connected conn reused =>
    cases h
    cases reused with
    | true => simp [turnsLeft]
    | false => simp [turnsLeft]
  | configuring conn =>
    cases h
    split
    all_goals simp [turnsLeft]
  | _ =>
    cases h
    simp [turnsLeft]

/-- **A turn is one of those left.** -/
theorem Stage.turnsLeft_of_turn (hn : s.databases.length ≤ n)
    (h : turn maxCached i env readable writable path s stage = some (s', stage')) :
    stage'.turnsLeft n < stage.turnsLeft n := by
  cases turns_of_turn h with
  | full a =>
    have hlength := (env.order.perm s.databases).length_eq
    simp only [turnsLeft, List.length_nil]
    omega
  | collected a instances =>
    simp only [turnsLeft, List.length_insertionSort, List.length_nil]
    omega
  | read a d databases instances =>
    simp only [turnsLeft, List.length_append, List.length_singleton]
    omega
  | connect a st inst st' hinner => exact SharedPool.turnsLeft_of_turn hinner
  | _ =>
    simp only [turnsLeft, SharedPool.turnsLeft, List.length_cons]
    omega

end Ends

/-- The event is a new call. -/
def Event.isCall : Event → Bool
  | call _ => true
  | _ => false

/-- `get_database` has returned the instance, or is to return it. -/
def Stage.listed : Stage → Bool
  | cached _ | connecting _ _ => true
  | _ => false

def Caller.turnsLeft (n : Nat) (c : Caller) : Nat := if c.gone then 0 else c.stage.turnsLeft n

/-- The turns that all calls have left at most. -/
def State.turnsLeft (s : State) : Nat :=
  (s.callers.map (Caller.turnsLeft s.callers.length)).sum

section Finite

variable {maxCached i : Nat} {root : Path} {s s' : State} {e : Event} {c c' : Caller} {pool : Shared}

/-- Every database of the cache was put there by a call of its own. -/
def Counted (s : State) : Prop := s.pool.databases.length ≤ s.callers.countP fun c => c.stage.listed

theorem sum_set {callers : List Caller} (f : Caller → Nat) (h : callers[i]? = some c) (c' : Caller) :
    ((callers.set i c').map f).sum + f c = (callers.map f).sum + f c' := by
  induction callers generalizing i with
  | nil => cases h
  | cons d callers ih =>
    cases i with
    | zero =>
      obtain rfl := Option.some.inj h
      simp only [List.set_cons_zero, List.map_cons, List.sum_cons]
      omega
    | succ i =>
      have hrest := ih h
      simp only [List.set_cons_succ, List.map_cons, List.sum_cons]
      omega

/-- A count changes like a sum. -/
theorem countP_eq_sum (p : Caller → Bool) (callers : List Caller) :
    callers.countP p = (callers.map fun c => (p c).toNat).sum := by
  induction callers with
  | nil => rfl
  | cons c callers ih =>
    rw [List.countP_cons, ih, List.map_cons, List.sum_cons]
    cases p c <;> simp [Nat.add_comm]

theorem listed_of_turn {path : Path} {env : TurnEnv} {readable writable : Bool} {s s' : Shared}
    {stage stage' : Stage}
    (h : turn maxCached i env readable writable path s stage = some (s', stage'))
    (hlisted : stage.listed = true) : stage'.listed = true := by
  cases turns_of_turn h with
  | cached a => rfl
  | connect a st inst st' hinner => rfl
  | _ => cases hlisted

theorem counted_new : Counted .new := Nat.le_refl _

theorem Counted.step (h : Counted s) (hstep : step maxCached root e s = some s') : Counted s' := by
  unfold Counted at h ⊢
  rcases step_cases hstep with ⟨dbPath, -, rfl⟩ | ⟨i, c, c', pool, hc, hhere, hacts, rfl⟩
  · show s.pool.databases.length ≤ (s.callers ++ [_]).countP _
    rw [List.countP_append]
    omega
  · -- the count changes by what the one caller counts
    have hsum := sum_set (fun c => c.stage.listed.toNat) hc c'
    rw [← countP_eq_sum fun c => c.stage.listed, ← countP_eq_sum fun c => c.stage.listed] at hsum
    show pool.databases.length ≤ (s.callers.set i c').countP fun c => c.stage.listed
    cases hacts with
    | cancel hc' hawaits hpool =>
      subst hc' hpool
      rw [databases_release]
      dsimp only at hsum
      omega
    | turn env stage hc' hturn =>
      subst hc'
      have hmono : c.stage.listed.toNat ≤ stage.listed.toNat := by
        cases hl : c.stage.listed with
        | false => exact Nat.zero_le _
        | true => rw [listed_of_turn hturn hl]
      dsimp only at hsum
      rcases databases_of_turn hturn with hsame | ⟨-, d, -, -, -, -, -, hrest, -⟩ | ⟨a, ha, ha', hnew⟩
      · rw [hsame]
        omega
      · have hle := length_remove_le d.path s.pool.databases
        rw [hrest]
        omega
      · have hle := length_remove_le (fullPath root c.dbPath) s.pool.databases
        rw [hnew, List.length_append, List.length_singleton]
        have hbefore : c.stage.listed.toNat = 0 := by rw [ha]; rfl
        have hafter : stage.listed.toNat = 1 := by rw [ha']; rfl
        omega

/-- A call that waits has a turn left. -/
theorem turnsLeft_pos {stage : Stage} {n : Nat} (h : stage.awaits = true) : 0 < stage.turnsLeft n := by
  cases stage with
  | connecting a st =>
    cases st <;> first | exact Nat.succ_pos _ | cases h
  | failed e => cases h
  | _ =>
    simp only [Stage.turnsLeft]
    omega

/-- **Every step but a new call is one of the turns left.** -/
theorem Counted.turnsLeft_step (h : Counted s) (hstep : SharedPool.step maxCached root e s = some s')
    (he : e.isCall = false) : s'.turnsLeft < s.turnsLeft ∧ s'.callers.length = s.callers.length := by
  rcases step_cases hstep with ⟨dbPath, rfl, -⟩ | ⟨i, c, c', pool, hc, hhere, hacts, rfl⟩
  · cases he
  · have hsum := sum_set (Caller.turnsLeft s.callers.length) hc c'
    have hlt : c'.turnsLeft s.callers.length < c.turnsLeft s.callers.length := by
      have hleft : c.turnsLeft s.callers.length = c.stage.turnsLeft s.callers.length := by
        simp [Caller.turnsLeft, hhere]
      rw [hleft]
      cases hacts with
      | cancel hc' hawaits hpool =>
        subst hc'
        exact turnsLeft_pos hawaits
      | turn env stage hc' hturn =>
        subst hc'
        exact Stage.turnsLeft_of_turn (h.trans List.countP_le_length) hturn
    refine ⟨?_, List.length_set⟩
    unfold State.turnsLeft
    rw [List.length_set]
    show ((s.callers.set i c').map _).sum < _
    omega

/-- By induction on the events, each of which takes a turn off. -/
theorem Counted.ends {es : List Event} (h : Counted s) (hrun : run maxCached root es s = some s')
    (hes : ∀ e ∈ es, e.isCall = false) : es.length ≤ s.turnsLeft := by
  induction es generalizing s with
  | nil => exact Nat.zero_le _
  | cons e es ih =>
    obtain ⟨s₁, hstep, hrest⟩ := Option.bind_eq_some_iff.1 hrun
    have hlt := (h.turnsLeft_step hstep (hes e List.mem_cons_self)).1
    have hle := ih (h.step hstep) hrest fun e he => hes e (List.mem_cons_of_mem _ he)
    rw [List.length_cons]
    omega

/-- The locks are where the callers have them, and the databases are counted, in every state. -/
theorem Reached.locking {limit : Nat} (h : Reached maxCached root limit s) : Locking s := by
  induction h with
  | new => exact locking_new
  | step h hopen hstep ih => exact ih.step hstep

theorem Reached.counted {limit : Nat} (h : Reached maxCached root limit s) : Counted s := by
  induction h with
  | new => exact counted_new
  | step h hopen hstep ih => exact ih.step hstep

end Finite

/-- Whatever is in progress goes on, and ends. -/
structure GoesOn (maxCached : Nat) (root : Path) (s : State) : Prop where
  /-- While a call or a drop is in progress, one of them waits for no lock that is taken. -/
  next : (∃ c ∈ s.callers, c.busy = true) →
    ∃ (i : Nat) (c : Caller), s.callers[i]? = some c ∧ c.busy = true ∧ ∀ l, c.Waits l → s.Free l
  /-- Each one of these has a turn, so it does not matter to whom a lock is given first. -/
  turns : ∀ (i : Nat) (c : Caller), s.callers[i]? = some c → c.busy = true →
    (∀ l, c.Waits l → s.Free l) → ∀ env, (step maxCached root (.turn i env) s).isSome = true
  /-- Without new calls, no more than the turns left follow. -/
  ends : ∀ es s', run maxCached root es s = some s' → (∀ e ∈ es, e.isCall = false) →
    es.length ≤ s.turnsLeft

/-- **The pool never deadlocks**, and every call and every drop ends. -/
theorem never_deadlocks {maxCached limit : Nat} {root : Path} {s : State}
    (h : Reached maxCached root limit s) : GoesOn maxCached root s where
  next := by
    rintro ⟨c, hc, hbusy⟩
    obtain ⟨i, hi⟩ := List.mem_iff_getElem?.1 hc
    have htop : ∀ l : Lock, l.rank < 2 := by
      intro l
      cases l with
      | cache => exact Nat.zero_lt_two
      | «instance» a => exact Nat.one_lt_two
    -- the one whose lock is highest in the order
    obtain ⟨j, ⟨d, hd, hdbusy⟩, hfree⟩ := (ascending s).progress htop ⟨c, hi, hbusy⟩
    refine ⟨j, d, hd, hdbusy, fun l hl x hx hholds => ?_⟩
    obtain ⟨k, hk⟩ := List.mem_iff_getElem?.1 hx
    exact hfree l ⟨d, hd, hl⟩ k ⟨x, hk, hholds⟩
  turns _ _ hc hbusy hfree env := turn_isSome h.locking hc hbusy hfree env
  ends _ _ hrun hes := h.counted.ends hrun hes

/-- An eviction is going on: a call has the cache write-locked and is to lock an instance that a third
call is using, and a fourth call is to read-lock the cache. -/
def whileEvicting : List Event :=
  [.call (fileAt 'a')] ++ List.replicate 15 (.turn 0 {}) ++ [.call (fileAt 'a')] ++
    List.replicate 9 (.turn 1 {}) ++ [.call (fileAt 'b')] ++ List.replicate 6 (.turn 2 {}) ++
    [.call (fileAt 'b'), .turn 3 {}]

theorem never_deadlocks_whileEvicting : ∃ s, run 0 dataDir whileEvicting .new = some s ∧
    s.callers.countP Caller.busy = 3 ∧ GoesOn 0 dataDir s := by
  have hrun : (run 0 dataDir whileEvicting .new).map (fun s => s.callers.countP Caller.busy) =
      some 3 := by decide +kernel
  have hwithin : within 0 dataDir 4 whileEvicting .new = true := by decide +kernel
  obtain ⟨s, hs, hbusy⟩ := Option.map_eq_some_iff.1 hrun
  exact ⟨s, hs, hbusy, never_deadlocks (Reached.new.run hs hwithin)⟩

end Events.SharedPool
