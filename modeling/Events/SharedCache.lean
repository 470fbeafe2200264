import Events.SharedPool

/-!
# The cache of the shared pool

What the calls of `Events.SharedPool` find in the cache and leave there, in every interleaving.

* **`seen`** — one instance with its callers, which runs as `PooledConnections` has it.
* **`Filed`** — the instances have the files open that they are cached under, or were asked for.
* **`Untested`**, **`Sized`** — during an eviction the databases that stay have a caller each.
* **`Inv`** — the invariant, kept by every step.
* **`shared_pool`** — connections have one owner and lead to the right file, and the cache stays small.
-/

namespace Events.SharedPool

open Pool (Path Arc Candidate accessLe fullPath remove)

/-! ## One instance and its callers -/

/-- What is to be seen at the instance `a`. -/
def seen (s : State) (a : Arc) : PooledConnections.State :=
  ⟨s.pool.instances a, s.callers.map fun c => c.stage.view a⟩

section Seen

variable {maxCached i : Nat} {root path : Path} {s s' : State} {e : Event} {c c' : Caller}
  {pool : Shared} {a b : Arc}

/-- What a step does at one instance: nothing, or what `PooledConnections` has there. -/
inductive SeenStep (s s' : PooledConnections.State) : Prop where
  | same (h : s' = s)
  | step (e : PooledConnections.Event) (h : PooledConnections.step e s = some s')

/-- A caller that does not have the instance, before and after. -/
theorem seen_set (hc : s.callers[i]? = some c) (hview : c'.stage.view b = c.stage.view b) :
    (s.callers.set i c').map (fun c => c.stage.view b) = s.callers.map fun c => c.stage.view b := by
  rw [List.map_set, hview]
  refine List.ext_getElem? fun j => ?_
  rw [List.getElem?_set]
  split
  · rename_i hj
    subst hj
    rw [List.getElem?_map, hc]
    split
    · rfl
    · rename_i hlt
      obtain ⟨hi, -⟩ := List.getElem?_eq_some_iff.1 hc
      exact absurd (by simpa using hi) hlt
  · rfl

theorem SeenStep.quiet (hc : s.callers[i]? = some c) (hview : c'.stage.view b = c.stage.view b)
    (hinst : pool.instances b = s.pool.instances b) :
    SeenStep (seen s b) (seen ⟨pool, s.callers.set i c'⟩ b) := by
  refine .same ?_
  show PooledConnections.State.mk _ _ = PooledConnections.State.mk _ _
  rw [hinst, seen_set hc hview]

/-- `get_database` or `evict_old_databases` locks an instance. -/
theorem SeenStep.lock (hc : s.callers[i]? = some c) (hview : c'.stage.view b = c.stage.view b)
    (hfree : (s.pool.instances a).lock = none) :
    SeenStep (seen s b) (seen ⟨s.pool.lock a, s.callers.set i c'⟩ b) := by
  by_cases hb : b = a
  · subst hb
    refine .step .lock ?_
    simp only [PooledConnections.step, seen, hfree, if_true]
    rw [seen_set hc hview, instances_lock, Function.update_self]
  · refine .quiet hc hview ?_
    rw [instances_lock, Function.update_of_ne hb]

/-- They unlock it. -/
theorem SeenStep.unlock (hc : s.callers[i]? = some c) (hview : c'.stage.view b = c.stage.view b)
    (hlock : (s.pool.instances a).lock = some .other) (hsame : pool.instances = s.pool.instances) :
    SeenStep (seen s b) (seen ⟨pool.unlock a, s.callers.set i c'⟩ b) := by
  by_cases hb : b = a
  · subst hb
    refine .step .unlock ?_
    simp only [PooledConnections.step, seen, hlock, if_true]
    rw [seen_set hc hview, instances_unlock, Function.update_self, hsame]
  · refine .quiet hc hview ?_
    rw [instances_unlock, Function.update_of_ne hb, hsame]

/-- Only a turn on the instance itself changes what its callers see of the caller. -/
theorem Locking.seenStep_turn (h : Locking s) (hc : s.callers[i]? = some c) (hhere : c.gone = false)
    {env : TurnEnv} {readable writable : Bool} {stage : Stage}
    (hturn : turn maxCached i env readable writable path s.pool c.stage = some (pool, stage)) :
    SeenStep (seen s b) (seen ⟨pool, s.callers.set i ⟨c.dbPath, stage, false⟩⟩ b) := by
  have hheld : ∀ a, c.stage.locked = some a → c.holder i = .other →
      (s.pool.instances a).lock = some .other := by
    intro a ha hholder
    rw [← hholder]
    exact h.held i c a hc (by simp [Caller.locked, hhere, ha])
  obtain ⟨dbPath, stage₀, gone⟩ := c
  cases turns_of_turn hturn with
  | touch a hfree => exact .lock hc rfl hfree
  | collect a d databases instances hfree => exact .lock hc rfl hfree
  | test a d instances evicted targetEvictions hfree => exact .lock hc rfl hfree
  | stamp a => exact .unlock hc rfl (hheld a rfl rfl) rfl
  | read a d databases instances => exact .unlock hc rfl (hheld d.2 rfl rfl) rfl
  | evict a d instances evicted targetEvictions hidle =>
    exact .unlock hc rfl (hheld d.arc rfl rfl) rfl
  | spare a d instances evicted targetEvictions hactive =>
    exact .unlock hc rfl (hheld d.arc rfl rfl) rfl
  | connect a st inst st' hinner =>
    by_cases hb : b = a
    · subst hb
      refine .step (.turn i env.connection) ?_
      simp only [PooledConnections.step, seen, List.getElem?_map, hc, Option.map_some, Stage.view,
        if_true, hinner, List.map_set, Shared.setInstance, Function.update_self]
    · refine .quiet hc ?_ (Function.update_of_ne hb ..)
      simp [Stage.view, Ne.symm hb]
  | found a | cached a =>
    refine .quiet hc ?_ rfl
    simp [Stage.view]
  | _ => exact .quiet hc rfl rfl

/-- **What is to be seen at an instance** runs as `PooledConnections` has it. -/
theorem Locking.seenStep (h : Locking s) (hstep : SharedPool.step maxCached root e s = some s')
    (b : Arc) : SeenStep (seen s b) (seen s' b) := by
  rcases step_cases hstep with ⟨dbPath, -, rfl⟩ | ⟨i, c, c', pool, hc, hhere, hacts, rfl⟩
  · refine .step .call ?_
    simp [PooledConnections.step, seen, Stage.view]
  · cases hacts with
    | turn env stage hc' hturn =>
      subst hc'
      exact h.seenStep_turn hc hhere hturn
    | cancel hc' hawaits hpool =>
      subst hc' hpool
      unfold release
      split
      · rename_i a hlocked
        have hholder : c.holder i = .other := by
          obtain ⟨dbPath, stage, gone⟩ := c
          cases stage with
          | connecting d st =>
            -- a call that waits for an instance does not have it locked
            cases st <;> simp_all [Stage.awaits, Stage.needs, Stage.locked, hasLock, needsLock]
          | _ => rfl
        have hheld := h.held i c a hc (by simp [Caller.locked, hhere, hlocked])
        rw [hholder] at hheld
        exact .unlock hc rfl hheld rfl
      · exact .quiet hc rfl rfl

/-- The accounts of every instance are in order. -/
def Accounts (s : State) : Prop := ∀ a, PooledConnections.Accounted (seen s a)

theorem accounts_new : Accounts .new := fun _ => PooledConnections.accounted_new

theorem Accounts.step (h : Accounts s) (hlocking : Locking s)
    (hstep : SharedPool.step maxCached root e s = some s') : Accounts s' := by
  intro a
  cases hlocking.seenStep hstep a with
  | same heq =>
    rw [heq]
    exact h a
  | step e' hstep' => exact (h a).step hstep'

end Seen

/-! ## The files and the size of the cache -/

section Cache

variable {maxCached limit i : Nat} {root path : Path} {s s' : State} {e : Event} {c c' : Caller}
  {pool : Shared} {rest rest' : List (Path × Arc)}

/-- The instances have the files open that they are cached under, or asked for. -/
structure Filed (root : Path) (s : State) : Prop where
  entries : ∀ d ∈ s.pool.databases, d.2 < s.pool.next ∧ s.pool.file d.2 = d.1
  keys : (s.pool.databases.map Prod.fst).Nodup
  arcs : ∀ c ∈ s.callers, ∀ a, c.stage.arc = some a →
    a < s.pool.next ∧ s.pool.file a = fullPath root c.dbPath

theorem filed_new : Filed root .new where
  entries d h := by cases h
  keys := List.nodup_nil
  arcs c h := by cases h

/-- What a turn does to the files, and where the instance of the caller comes from. -/
structure Files (path : Path) (s s' : Shared) (stage stage' : Stage) : Prop where
  next : s.next ≤ s'.next
  file : ∀ a, a < s.next → s'.file a = s.file a
  arc : ∀ a, stage'.arc = some a → stage.arc = some a ∨ (path, a) ∈ s.databases ∨
    (a < s'.next ∧ s'.file a = path)

theorem Files.of_same {s s' : Shared} {stage stage' : Stage} (hnext : s'.next = s.next)
    (hfile : s'.file = s.file) (harc : stage'.arc = stage.arc ∨ stage'.arc = none) :
    Files path s s' stage stage' where
  next := hnext.ge
  file a _ := by rw [hfile]
  arc a ha := by
    rcases harc with harc | harc
    · exact .inl (harc ▸ ha)
    · rw [harc] at ha
      cases ha

theorem files_of_turn {env : TurnEnv} {readable writable : Bool} {s s' : Shared}
    {stage stage' : Stage}
    (h : turn maxCached i env readable writable path s stage = some (s', stage')) :
    Files path s s' stage stage' := by
  cases turns_of_turn h with
  | hit b hb =>
    refine ⟨le_refl _, fun _ _ => rfl, fun a ha => .inr (.inl ?_)⟩
    obtain rfl := Option.some.inj ha
    obtain ⟨l₁, l₂, heq, -⟩ := List.lookup_eq_some_iff.1 hb
    rw [heq]
    exact List.mem_append_right _ List.mem_cons_self
  | build =>
    refine ⟨Nat.le_succ _, fun a ha => Function.update_of_ne (Nat.ne_of_lt ha) .., fun a ha => ?_⟩
    obtain rfl := Option.some.inj ha
    exact .inr (.inr ⟨Nat.lt_succ_self _, Function.update_self ..⟩)
  | _ => exact .of_same rfl rfl (.inl rfl)

theorem mem_remove {databases : List (Path × Arc)} {d : Path × Arc} :
    d ∈ remove path databases ↔ d ∈ databases ∧ d.1 ≠ path := by
  simp [remove]

theorem nodup_insert {databases : List (Path × Arc)} (h : (databases.map Prod.fst).Nodup)
    (path : Path) (a : Arc) : ((remove path databases ++ [(path, a)]).map Prod.fst).Nodup := by
  rw [List.map_append, List.nodup_append]
  refine ⟨h.sublist (List.filter_sublist.map _), List.nodup_singleton _, fun p hp q hq => ?_⟩
  obtain ⟨d, hd, rfl⟩ := List.mem_map.1 hp
  obtain rfl : q = path := by simpa using hq
  exact (mem_remove.1 hd).2

theorem Filed.step (h : Filed root s) (hstep : SharedPool.step maxCached root e s = some s') :
    Filed root s' := by
  rcases step_cases hstep with ⟨dbPath, -, rfl⟩ | ⟨i, c, c', pool, hc, hhere, hacts, rfl⟩
  · refine ⟨h.entries, h.keys, fun c hc a ha => ?_⟩
    rcases List.mem_append.1 hc with hc | hc
    · exact h.arcs c hc a ha
    · obtain rfl := List.mem_singleton.1 hc
      cases ha
  · have hmem := List.mem_of_getElem? hc
    cases hacts with
    | cancel hc' hawaits hpool =>
      subst hc' hpool
      have hfile : (release s.pool c.stage).file = s.pool.file := by unfold release; split <;> rfl
      have hnext : (release s.pool c.stage).next = s.pool.next := by unfold release; split <;> rfl
      refine ⟨fun d hd => ?_, ?_, fun d hd a ha => ?_⟩
      · show d.2 < (release s.pool c.stage).next ∧ (release s.pool c.stage).file d.2 = d.1
        rw [hfile, hnext]
        exact h.entries d (by simpa using hd)
      · simpa using h.keys
      · show a < (release s.pool c.stage).next ∧ (release s.pool c.stage).file a = _
        rw [hfile, hnext]
        rcases List.mem_or_eq_of_mem_set hd with hd | rfl
        · exact h.arcs d hd a ha
        · exact h.arcs c hmem a ha
    | turn env stage hc' hturn =>
      subst hc'
      have hfiles := files_of_turn hturn
      have hold : ∀ d ∈ s.pool.databases, d.2 < pool.next ∧ pool.file d.2 = d.1 := by
        intro d hd
        obtain ⟨hlt, hfile⟩ := h.entries d hd
        exact ⟨hlt.trans_le hfiles.next, (hfiles.file _ hlt).trans hfile⟩
      have harcs : ∀ d ∈ s.callers, ∀ a, d.stage.arc = some a →
          a < pool.next ∧ pool.file a = fullPath root d.dbPath := by
        intro d hd a ha
        obtain ⟨hlt, hfile⟩ := h.arcs d hd a ha
        exact ⟨hlt.trans_le hfiles.next, (hfiles.file _ hlt).trans hfile⟩
      -- files stay open under their instances, so only what the turn adds is new
      refine ⟨fun d hd => ?_, ?_, fun d hd a ha => ?_⟩
      · rcases databases_of_turn hturn with hsame | ⟨-, x, -, -, -, -, -, hrest, -⟩ | ⟨a, ha, -, hnew⟩
        · exact hold d (hsame ▸ hd)
        · exact hold d (mem_remove.1 (hrest ▸ hd)).1
        · rcases List.mem_append.1 (hnew ▸ hd) with hd | hd
          · exact hold d (mem_remove.1 hd).1
          · obtain rfl := List.mem_singleton.1 hd
            exact harcs c hmem a (by rw [ha]; rfl)
      · rcases databases_of_turn hturn with hsame | ⟨-, x, -, -, -, -, -, hrest, -⟩ | ⟨a, ha, -, hnew⟩
        · show (pool.databases.map Prod.fst).Nodup
          rw [hsame]
          exact h.keys
        · show (pool.databases.map Prod.fst).Nodup
          rw [hrest]
          exact h.keys.sublist (List.filter_sublist.map _)
        · show (pool.databases.map Prod.fst).Nodup
          rw [hnew]
          exact nodup_insert h.keys _ _
      · rcases List.mem_or_eq_of_mem_set hd with hd | rfl
        · exact harcs d hd a ha
        · rcases hfiles.arc a ha with ha | hin | hnew
          · exact harcs c hmem a ha
          · exact hold (fullPath root c.dbPath, a) hin
          · exact hnew

/-- An instance is cached once. -/
theorem Filed.arcs_nodup (h : Filed root s) : (s.pool.databases.map Prod.snd).Nodup := by
  have hentries := h.entries
  have hkeys := h.keys
  generalize s.pool.databases = databases at hentries hkeys
  induction databases with
  | nil => exact List.nodup_nil
  | cons d databases ih =>
    rw [List.map_cons, List.nodup_cons] at hkeys ⊢
    refine ⟨fun hmem => hkeys.1 ?_, ih (fun x hx => hentries x (List.mem_cons_of_mem _ hx)) hkeys.2⟩
    obtain ⟨x, hx, harc⟩ := List.mem_map.1 hmem
    have hfile := (hentries x (List.mem_cons_of_mem _ hx)).2
    rw [harc, (hentries d List.mem_cons_self).2] at hfile
    rw [hfile]
    exact List.mem_map_of_mem hx

theorem Filed.eq_of_path (h : Filed root s) {d x : Path × Arc} (hd : d ∈ s.pool.databases)
    (hx : x ∈ s.pool.databases) (hpath : d.1 = x.1) : d = x :=
  List.inj_on_of_nodup_map h.keys hd hx hpath

/-- The entry of the cache that a candidate was read from. -/
def entryOf (c : Candidate) : Path × Arc := (c.path, c.arc)

/-- An eviction is going on, and `rest` are the entries that it has not tested. Those it has left in the
cache had a caller each that was on its way when the eviction began. -/
structure Untested (limit : Nat) (s : State) (rest : List (Path × Arc)) : Prop where
  nodup : rest.Nodup
  listed : ∀ d ∈ rest, d ∈ s.pool.databases
  charged : ∃ users : List Nat, users.length + 1 ≤ limit ∧
    (∀ (j : Nat) (c : Caller) a st, s.callers[j]? = some c → c.gone = false →
      c.stage = .connecting a st → st ≠ .done → j ∈ users) ∧
    ∀ d ∈ s.pool.databases, d ∉ rest →
      ∃ j ∈ users, ∃ (c : Caller) (st : _), s.callers[j]? = some c ∧ c.stage = .connecting d.2 st

/-- What the writer of the cache knows of its size. -/
def Stage.Sized (maxCached limit : Nat) (s : State) : Stage → Prop
  | collecting _ databases instances => Untested limit s (databases ++ instances.map entryOf)
  | reading _ d databases instances => Untested limit s (d :: databases ++ instances.map entryOf)
  | evicting _ instances evicted targetEvictions => Untested limit s (instances.map entryOf) ∧
    s.pool.databases.length + evicted + 1 ≤ targetEvictions + maxCached
  | testing _ c instances evicted targetEvictions =>
    Untested limit s (entryOf c :: instances.map entryOf) ∧
      s.pool.databases.length + evicted + 1 ≤ targetEvictions + maxCached
  | caching _ => s.pool.databases.length + 1 ≤ max (maxCached + 1) limit
  | _ => True

theorem Untested.perm (h : Untested limit s rest) (hperm : rest.Perm rest') :
    Untested limit s rest' := by
  obtain ⟨users, hlength, husers, hcharged⟩ := h.charged
  exact ⟨hperm.nodup_iff.1 h.nodup, fun d hd => h.listed d (hperm.mem_iff.2 hd), users, hlength, husers,
    fun d hd hnot => hcharged d hd fun hin => hnot (hperm.mem_iff.1 hin)⟩

/-- Nobody gets an instance by a step, and who has one keeps it. -/
structure SameUsers (s s' : State) : Prop where
  back : ∀ (j : Nat) (c : Caller) a st, s'.callers[j]? = some c → c.gone = false →
    c.stage = .connecting a st → st ≠ .done →
      ∃ (c₀ : Caller) (st₀ : _), s.callers[j]? = some c₀ ∧ c₀.gone = false ∧
        c₀.stage = .connecting a st₀ ∧ st₀ ≠ .done
  forth : ∀ (j : Nat) (c : Caller) a st, s.callers[j]? = some c → c.stage = .connecting a st →
    ∃ (c' : Caller) (st' : _), s'.callers[j]? = some c' ∧ c'.stage = .connecting a st'

theorem Untested.sameUsers (h : Untested limit s rest) (husers : SameUsers s s')
    (hdatabases : s'.pool.databases = s.pool.databases) : Untested limit s' rest := by
  obtain ⟨users, hlength, hin, hcharged⟩ := h.charged
  refine ⟨h.nodup, fun d hd => hdatabases ▸ h.listed d hd, users, hlength, fun j c a st hc hhere hst hne => ?_,
    fun d hd hnot => ?_⟩
  · obtain ⟨c₀, st₀, hc₀, hhere₀, hst₀, hne₀⟩ := husers.back j c a st hc hhere hst hne
    exact hin j c₀ a st₀ hc₀ hhere₀ hst₀ hne₀
  · obtain ⟨j, hj, c, st, hc, hst⟩ := hcharged d (hdatabases ▸ hd) hnot
    obtain ⟨c', st', hc', hst'⟩ := husers.forth j c d.2 st hc hst
    exact ⟨j, hj, c', st', hc', hst'⟩

/-- An instance is got only by `get_database` as it unlocks the cache. -/
theorem sameUsers_of_acts (hc : s.callers[i]? = some c) (hhere : c.gone = false)
    (hacts : Acts maxCached i root s c c' pool) (hfound : ∀ a, c.stage ≠ .found a)
    (hcached : ∀ a, c.stage ≠ .cached a) : SameUsers s ⟨pool, s.callers.set i c'⟩ := by
  have hown : (∀ a st, c'.gone = false → c'.stage = .connecting a st → st ≠ .done →
      ∃ st₀, c.stage = .connecting a st₀ ∧ st₀ ≠ .done) ∧
      ∀ a st, c.stage = .connecting a st → ∃ st', c'.stage = .connecting a st' := by
    cases hacts with
    | cancel hc' hawaits hpool =>
      subst hc'
      exact ⟨fun a st hgone _ _ => (by cases hgone), fun a st hst => ⟨st, hst⟩⟩
    | turn env stage hc' hturn =>
      subst hc'
      obtain ⟨dbPath, stage₀, gone⟩ := c
      cases turns_of_turn hturn with
      | connect a₀ st₀ inst st' hinner =>
        refine ⟨fun a st _ hst hne => ?_, fun a st hst => ?_⟩
        · obtain ⟨rfl, rfl⟩ := Stage.connecting.inj hst
          refine ⟨st₀, rfl, ?_⟩
          rintro rfl
          cases hinner
        · obtain ⟨rfl, rfl⟩ := Stage.connecting.inj hst
          exact ⟨st', rfl⟩
      | found a => exact absurd rfl (hfound a)
      | cached a => exact absurd rfl (hcached a)
      | _ => exact ⟨fun a st _ hst _ => (by cases hst), fun a st hst => (by cases hst)⟩
  refine ⟨fun j d a st hd hgone hst hne => ?_, fun j d a st hd hst => ?_⟩
  · rcases mem_set hd with ⟨rfl, rfl⟩ | ⟨hj, hj'⟩
    · obtain ⟨st₀, hst₀, hne₀⟩ := hown.1 a st hgone hst hne
      exact ⟨c, st₀, hc, hhere, hst₀, hne₀⟩
    · exact ⟨d, st, hj', hgone, hst, hne⟩
  · by_cases hj : j = i
    · subst hj
      obtain rfl := Option.some.inj (hc.symm.trans hd)
      obtain ⟨st', hst'⟩ := hown.2 a st hst
      exact ⟨c', st', set_self hc, hst'⟩
    · exact ⟨d, st, (set_ne hj).trans hd, hst⟩

theorem sameUsers_called (s : State) (dbPath : Path) :
    SameUsers s ⟨s.pool, s.callers ++ [⟨dbPath, .called, false⟩]⟩ where
  back j c a st hc hhere hst hne := by
    rcases mem_append_call hc with hc | rfl
    · exact ⟨c, st, hc, hhere, hst, hne⟩
    · cases hst
  forth j c a st hc hst := ⟨c, st, of_mem_append hc _, hst⟩

theorem Stage.Sized.sameUsers {stage : Stage} (h : stage.Sized maxCached limit s)
    (husers : SameUsers s s') (hdatabases : s'.pool.databases = s.pool.databases) :
    stage.Sized maxCached limit s' := by
  cases stage with
  | collecting a databases instances => exact Untested.sameUsers h husers hdatabases
  | reading a d databases instances => exact Untested.sameUsers h husers hdatabases
  | evicting a instances evicted targetEvictions =>
    refine ⟨h.1.sameUsers husers hdatabases, ?_⟩
    rw [hdatabases]
    exact h.2
  | testing a c instances evicted targetEvictions =>
    refine ⟨h.1.sameUsers husers hdatabases, ?_⟩
    rw [hdatabases]
    exact h.2
  | caching a =>
    show s'.pool.databases.length + 1 ≤ _
    rw [hdatabases]
    exact h
  | _ => trivial

/-- When nothing is left to test, each database that has stayed has one of the users. -/
theorem Untested.length_le (h : Untested limit s []) (hfiled : Filed root s) :
    s.pool.databases.length + 1 ≤ limit := by
  obtain ⟨users, hlength, -, hcharged⟩ := h.charged
  -- a caller is on its way to one instance, so no user is counted twice
  have hsubset : s.pool.databases.map Prod.snd ⊆
      users.filterMap fun j => s.callers[j]?.bind fun c => c.stage.arc := by
    intro a ha
    obtain ⟨d, hd, rfl⟩ := List.mem_map.1 ha
    obtain ⟨j, hj, c, st, hc, hst⟩ := hcharged d hd (List.not_mem_nil)
    exact List.mem_filterMap.2 ⟨j, hj, by rw [hc, Option.bind_some, hst]; rfl⟩
  have hle := hfiled.arcs_nodup.length_le_of_subset hsubset
  have husers := List.length_filterMap_le (fun j => s.callers[j]?.bind fun c => c.stage.arc) users
  rw [List.length_map] at hle
  omega

/-- The eviction begins while at most `limit` calls are open, its own among them. -/
theorem untested_start (hc : s.callers[i]? = some c) (hopen : s.openCalls ≤ limit)
    (hmine : c.isOpen = true) (hnot : ∀ a st, c.stage ≠ .connecting a st)
    (hperm : rest.Perm s.pool.databases) (hfiled : Filed root s) : Untested limit s rest := by
  refine ⟨hperm.nodup_iff.2 (List.Nodup.of_map _ hfiled.keys), fun d hd => hperm.mem_iff.1 hd,
    ((s.callers.zipIdx.filter fun x => x.1.isOpen).map Prod.snd).erase i, ?_, ?_,
    fun d hd hd' => absurd (hperm.mem_iff.2 hd) hd'⟩
  · have hmem : i ∈ (s.callers.zipIdx.filter fun x => x.1.isOpen).map Prod.snd :=
      List.mem_map.2 ⟨(c, i), List.mem_filter.2 ⟨List.mem_zipIdx_iff_getElem?.2 hc, hmine⟩, rfl⟩
    have hcount : (s.callers.zipIdx.filter fun x => x.1.isOpen).length = s.openCalls := by
      have hmap : s.openCalls = ((s.callers.zipIdx).map Prod.fst).countP Caller.isOpen := by
        rw [List.zipIdx_map_fst]
        rfl
      rw [hmap, List.countP_map, List.countP_eq_length_filter]
      rfl
    have hpos := List.length_pos_of_mem hmem
    rw [List.length_erase_of_mem hmem]
    rw [List.length_map, hcount] at hpos ⊢
    omega
  · intro j d a st hd hhere hst hne
    have hopen' : d.isOpen = true := by
      have hover : Stage.isOver (.connecting a st) = false := by
        cases st <;> first | rfl | exact absurd rfl hne
      simp [Caller.isOpen, hhere, hst, hover]
    have hji : j ≠ i := by
      rintro rfl
      obtain rfl := Option.some.inj (hc.symm.trans hd)
      exact hnot a st hst
    refine (List.mem_erase_of_ne hji).2 (List.mem_map.2 ⟨(d, j), ?_, rfl⟩)
    exact List.mem_filter.2 ⟨List.mem_zipIdx_iff_getElem?.2 hd, hopen'⟩

/-- Dropped calls have waited for something. -/
def Waited (s : State) : Prop := ∀ c ∈ s.callers, c.gone = true → c.stage.awaits = true

/-- An instance with active connections has a caller on its way. -/
theorem exists_user (haccounts : Accounts s) (hwaited : Waited s) {a : Arc}
    (hactive : (s.pool.instances a).activeConnections ≠ 0) :
    ∃ (j : Nat) (c : Caller) (st : _), s.callers[j]? = some c ∧ c.gone = false ∧
      c.stage = .connecting a st ∧ st ≠ .done := by
  have hcount : 0 < (s.callers.map fun c => c.stage.view a).countP PooledConnections.Stage.counts := by
    have hcounter := (haccounts a).counter
    simp only [seen] at hcounter
    omega
  obtain ⟨st, hst, hcounts⟩ := List.countP_pos_iff.1 hcount
  obtain ⟨c, hc, rfl⟩ := List.mem_map.1 hst
  obtain ⟨j, hj⟩ := List.mem_iff_getElem?.1 hc
  obtain ⟨dbPath, stage, gone⟩ := c
  cases stage with
  | connecting b st =>
    by_cases hb : b = a
    · subst hb
      have hcounts' : st.counts = true := by simpa [Stage.view] using hcounts
      refine ⟨j, _, st, hj, ?_, rfl, ?_⟩
      · cases gone with
        | false => rfl
        | true =>
          -- what waits for an instance is not in its counter
          have hawaits := hwaited _ hc rfl
          cases st <;> simp_all [Stage.awaits, Stage.needs, needsLock, PooledConnections.Stage.counts]
      · rintro rfl
        cases hcounts'
    · simp [Stage.view, hb, PooledConnections.Stage.counts] at hcounts
  | _ => cases hcounts

/-- An idle instance is evicted. -/
theorem Untested.evicted {d : Path × Arc} (h : Untested limit s (d :: rest)) (hfiled : Filed root s)
    (husers : SameUsers s s') (hdatabases : s'.pool.databases = remove d.1 s.pool.databases) :
    Untested limit s' rest ∧ s'.pool.databases.length + 1 ≤ s.pool.databases.length := by
  obtain ⟨hnot, hnodup⟩ := List.nodup_cons.1 h.nodup
  have hd := h.listed d List.mem_cons_self
  have hne : ∀ x ∈ s.pool.databases, x ≠ d → x.1 ≠ d.1 :=
    fun x hx hxd hpath => hxd (hfiled.eq_of_path hx hd hpath)
  constructor
  · obtain ⟨users, hlength, hin, hcharged⟩ := h.charged
    refine ⟨hnodup, fun x hx => ?_, users, hlength, fun j c a st hc hhere hst hdone => ?_,
      fun x hx hxrest => ?_⟩
    · have hxd : x ≠ d := fun heq => hnot (heq ▸ hx)
      have hlisted := h.listed x (List.mem_cons_of_mem _ hx)
      rw [hdatabases]
      exact mem_remove.2 ⟨hlisted, hne x hlisted hxd⟩
    · obtain ⟨c₀, st₀, hc₀, hhere₀, hst₀, hdone₀⟩ := husers.back j c a st hc hhere hst hdone
      exact hin j c₀ a st₀ hc₀ hhere₀ hst₀ hdone₀
    · rw [hdatabases] at hx
      obtain ⟨hx, hpath⟩ := mem_remove.1 hx
      have hxall : x ∉ d :: rest := by
        rw [List.mem_cons, not_or]
        exact ⟨fun heq => hpath (heq ▸ rfl), hxrest⟩
      obtain ⟨j, hj, c, st, hc, hst⟩ := hcharged x hx hxall
      obtain ⟨c', st', hc', hst'⟩ := husers.forth j c x.2 st hc hst
      exact ⟨j, hj, c', st', hc', hst'⟩
  · rw [hdatabases]
    exact List.length_filter_lt_length_iff_exists.2 ⟨d, hd, by simp⟩

/-- An instance in use stays. -/
theorem Untested.left {d : Path × Arc} (h : Untested limit s (d :: rest)) (haccounts : Accounts s)
    (hwaited : Waited s) (hactive : (s.pool.instances d.2).activeConnections ≠ 0) :
    Untested limit s rest := by
  obtain ⟨users, hlength, hin, hcharged⟩ := h.charged
  refine ⟨(List.nodup_cons.1 h.nodup).2, fun x hx => h.listed x (List.mem_cons_of_mem _ hx), users,
    hlength, hin, fun x hx hxrest => ?_⟩
  by_cases hxd : x = d
  · subst hxd
    obtain ⟨j, c, st, hc, hhere, hst, hdone⟩ := exists_user haccounts hwaited hactive
    exact ⟨j, hin j c x.2 st hc hhere hst hdone, c, st, hc, hst⟩
  · exact hcharged x hx (by simp [hxd, hxrest])

/-- **The writer's own turn.** -/
theorem sized_turn {env : TurnEnv} {readable writable : Bool} {stage : Stage}
    (hc : s.callers[i]? = some c) (hhere : c.gone = false) (hopen : s.openCalls ≤ limit)
    (hfiled : Filed root s) (haccounts : Accounts s) (hwaited : Waited s)
    (hsized : c.stage.Sized maxCached limit s)
    (hturn : turn maxCached i env readable writable path s.pool c.stage = some (pool, stage))
    (husers : (∀ a, c.stage ≠ .found a) → (∀ a, c.stage ≠ .cached a) →
      SameUsers s ⟨pool, s.callers.set i ⟨c.dbPath, stage, false⟩⟩) :
    stage.Sized maxCached limit ⟨pool, s.callers.set i ⟨c.dbPath, stage, false⟩⟩ := by
  obtain ⟨dbPath, stage₀, gone⟩ := c
  obtain rfl : gone = false := hhere
  cases turns_of_turn hturn with
  | fits a hfits =>
    show s.pool.databases.length + 1 ≤ _
    omega
  | full a =>
    -- the calls that are on their way now are all that can keep an instance from its eviction
    have hsame := husers (fun a h => (by cases h)) fun a h => (by cases h)
    refine Untested.sameUsers ?_ hsame rfl
    refine untested_start hc hopen rfl (fun a st h => (by cases h)) ?_ hfiled
    rw [List.map_nil, List.append_nil]
    exact env.order.perm _
  | collected a instances =>
    have hsame := husers (fun a h => (by cases h)) fun a h => (by cases h)
    refine ⟨Untested.sameUsers (Untested.perm hsized ?_) hsame rfl, ?_⟩
    · exact ((List.perm_insertionSort accessLe instances).map entryOf).symm
    · show s.pool.databases.length + 0 + 1 ≤ _
      omega
  | collect a d databases instances hfree =>
    exact Untested.sameUsers hsized (husers (fun a h => (by cases h)) fun a h => (by cases h)) rfl
  | read a d databases instances =>
    have hsame := husers (fun a h => (by cases h)) fun a h => (by cases h)
    refine Untested.sameUsers (Untested.perm hsized ?_) hsame rfl
    rw [List.map_append, ← List.append_assoc]
    exact (List.perm_append_singleton d (databases ++ instances.map entryOf)).symm
  | spent a evicted targetEvictions =>
    -- every database that is left has a call of its own
    have hle := hsized.1.length_le hfiled
    show s.pool.databases.length + 1 ≤ _
    omega
  | enough a d instances evicted targetEvictions henough =>
    have hlength := hsized.2
    show s.pool.databases.length + 1 ≤ _
    omega
  | test a d instances evicted targetEvictions hfree =>
    have hsame := husers (fun a h => (by cases h)) fun a h => (by cases h)
    exact ⟨hsized.1.sameUsers hsame rfl, hsized.2⟩
  | evict a d instances evicted targetEvictions hidle =>
    have hsame := husers (fun a h => (by cases h)) fun a h => (by cases h)
    have hlength := hsized.2
    obtain ⟨hrest, hlt⟩ := hsized.1.evicted hfiled hsame rfl
    refine ⟨hrest, ?_⟩
    omega
  | spare a d instances evicted targetEvictions hactive =>
    have hsame := husers (fun a h => (by cases h)) fun a h => (by cases h)
    exact ⟨(hsized.1.left haccounts hwaited hactive).sameUsers hsame rfl, hsized.2⟩
  | _ => trivial

/-- What every step keeps. -/
structure Inv (maxCached : Nat) (root : Path) (limit : Nat) (s : State) : Prop where
  locking : Locking s
  accounts : Accounts s
  filed : Filed root s
  waited : Waited s
  sized : ∀ (i : Nat) (c : Caller), s.callers[i]? = some c → c.gone = false →
    c.stage.Sized maxCached limit s
  size : s.pool.databases.length ≤ max (maxCached + 1) limit

theorem inv_new : Inv maxCached root limit .new where
  locking := locking_new
  accounts := accounts_new
  filed := filed_new
  waited c h := by cases h
  sized i c h _ := by cases h
  size := Nat.zero_le _

theorem Waited.step (h : Waited s) (hstep : SharedPool.step maxCached root e s = some s') :
    Waited s' := by
  rcases step_cases hstep with ⟨dbPath, -, rfl⟩ | ⟨i, c, c', pool, hc, hhere, hacts, rfl⟩
  · intro d hd hgone
    rcases List.mem_append.1 hd with hd | hd
    · exact h d hd hgone
    · obtain rfl := List.mem_singleton.1 hd
      cases hgone
  · intro d hd hgone
    rcases List.mem_or_eq_of_mem_set hd with hd | rfl
    · exact h d hd hgone
    · cases hacts with
      | turn env stage hc' hturn =>
        subst hc'
        cases hgone
      | cancel hc' hawaits hpool =>
        subst hc'
        exact hawaits

/-- The cache is changed by its writer only. -/
theorem Acts.databases (hacts : Acts maxCached i root s c c' pool) (hhere : c.gone = false)
    (hnot : c.writes = false) : pool.databases = s.pool.databases := by
  have hstage : c.stage.writes = false := by simpa [Caller.writes, hhere] using hnot
  cases hacts with
  | cancel hc' hawaits hpool =>
    subst hpool
    exact databases_release _ _
  | turn env stage hc' hturn =>
    rcases databases_of_turn hturn with hsame | ⟨a, d, instances, evicted, targetEvictions, ha, -⟩ |
      ⟨a, ha, -⟩
    · exact hsame
    · rw [ha] at hstage
      cases hstage
    · rw [ha] at hstage
      cases hstage

theorem Inv.sized_step (h : Inv maxCached root limit s) (hopen : s.openCalls ≤ limit)
    (hc : s.callers[i]? = some c) (hhere : c.gone = false)
    (hacts : Acts maxCached i root s c c' pool) {j : Nat} {d : Caller}
    (hd : (s.callers.set i c')[j]? = some d) (hdhere : d.gone = false) :
    d.stage.Sized maxCached limit ⟨pool, s.callers.set i c'⟩ := by
  rcases mem_set hd with ⟨rfl, rfl⟩ | ⟨hj, hj'⟩
  · have husers := sameUsers_of_acts hc hhere hacts
    cases hacts with
    | cancel hc' hawaits hpool =>
      subst hc'
      cases hdhere
    | turn env stage hc' hturn =>
      subst hc'
      exact sized_turn hc hhere hopen h.filed h.accounts h.waited (h.sized _ c hc hhere) hturn husers
  · cases hdw : d.writes with
    | false =>
      have hstage : d.stage.writes = false := by simpa [Caller.writes, hdhere] using hdw
      generalize d.stage = stage at hstage
      cases stage <;> trivial
    | true =>
      -- while another call writes, this one has the cache not even read-locked
      have hnone : (c.reads || c.writes) = false := by
        by_contra hsome
        exact hj (h.locking.exclusive j i d c hj' hc hdw (Bool.eq_true_of_not_eq_false hsome))
      obtain ⟨hreads, hwrites⟩ := Bool.or_eq_false_iff.1 hnone
      have husers : SameUsers s ⟨pool, s.callers.set i c'⟩ := by
        refine sameUsers_of_acts hc hhere hacts (fun a ha => ?_) fun a ha => ?_
        · simp [Caller.reads, hhere, ha, Stage.reads] at hreads
        · simp [Caller.writes, hhere, ha, Stage.writes] at hwrites
      exact (h.sized j d hj' hdhere).sameUsers husers (hacts.databases hhere hwrites)

theorem Inv.size_step (h : Inv maxCached root limit s) (hc : s.callers[i]? = some c)
    (hhere : c.gone = false) (hacts : Acts maxCached i root s c c' pool) :
    pool.databases.length ≤ max (maxCached + 1) limit := by
  have hsize := h.size
  cases hacts with
  | cancel hc' hawaits hpool =>
    subst hpool
    rw [databases_release]
    exact hsize
  | turn env stage hc' hturn =>
    rcases databases_of_turn hturn with hsame | ⟨-, d, -, -, -, -, -, hrest, -⟩ | ⟨a, ha, -, hnew⟩
    · rw [hsame]
      exact hsize
    · rw [hrest]
      exact (length_remove_le _ _).trans hsize
    · have hsized := h.sized i c hc hhere
      rw [ha] at hsized
      have hroom : s.pool.databases.length + 1 ≤ max (maxCached + 1) limit := hsized
      have hle := length_remove_le (fullPath root c.dbPath) s.pool.databases
      rw [hnew, List.length_append, List.length_singleton]
      omega

theorem Inv.step (h : Inv maxCached root limit s) (hopen : s.openCalls ≤ limit)
    (hstep : SharedPool.step maxCached root e s = some s') : Inv maxCached root limit s' where
  locking := h.locking.step hstep
  accounts := h.accounts.step h.locking hstep
  filed := h.filed.step hstep
  waited := h.waited.step hstep
  sized := by
    rcases step_cases hstep with ⟨dbPath, -, rfl⟩ | ⟨i, c, c', pool, hc, hhere, hacts, rfl⟩
    · intro j d hd hdhere
      rcases mem_append_call hd with hd | rfl
      · exact (h.sized j d hd hdhere).sameUsers (sameUsers_called s dbPath) rfl
      · trivial
    · exact fun j d hd hdhere => h.sized_step hopen hc hhere hacts hd hdhere
  size := by
    rcases step_cases hstep with ⟨dbPath, -, rfl⟩ | ⟨i, c, c', pool, hc, hhere, hacts, rfl⟩
    · exact h.size
    · exact h.size_step hc hhere hacts

theorem Reached.inv (h : Reached maxCached root limit s) : Inv maxCached root limit s := by
  induction h with
  | new => exact inv_new
  | step h hopen hstep ih => exact ih.step hopen hstep

/-! ## The results -/

/-- What the pool guarantees while at most `limit` calls are open at once. -/
structure Sound (maxCached : Nat) (root : Path) (limit : Nat) (s : State) : Prop where
  /-- The connections of every instance have one owner, and its counter counts them all. -/
  owners : ∀ a, PooledConnections.OneOwner (seen s a)
  /-- The counter is exact for an instance on which no call and no drop is in progress. -/
  exact : ∀ a, (∀ c ∈ s.callers, c.gone = false → ∀ st, c.stage = .connecting a st → st.atRest = true) →
    (s.pool.instances a).activeConnections = (seen s a).liveConns.length
  /-- A connection is one to the file that its caller has asked for. -/
  file : ∀ c ∈ s.callers, ∀ a conn, c.stage = .connecting a (.live conn) →
    s.pool.file a = fullPath root c.dbPath
  entries : ∀ d ∈ s.pool.databases, s.pool.file d.2 = d.1
  keys : (s.pool.databases.map Prod.fst).Nodup
  size : s.pool.databases.length ≤ max (maxCached + 1) limit
  /-- What leaves the cache has no live connection, or makes room for an instance of the same file. -/
  evicts : ∀ e s', step maxCached root e s = some s' →
    ∀ d ∈ s.pool.databases, d ∉ s'.pool.databases →
      (seen s d.2).liveConns = [] ∨ ∃ a, (d.1, a) ∈ s'.pool.databases

theorem Inv.exact (h : Inv maxCached root limit s) {a : Arc}
    (hrest : ∀ c ∈ s.callers, c.gone = false → ∀ st, c.stage = .connecting a st → st.atRest = true) :
    (s.pool.instances a).activeConnections = (seen s a).liveConns.length := by
  have hcounter : (s.pool.instances a).activeConnections =
      (s.callers.map fun c => c.stage.view a).countP PooledConnections.Stage.counts :=
    (h.accounts a).counter
  rw [hcounter, PooledConnections.State.liveConns, List.length_filterMap_eq_countP]
  simp only [seen, List.countP_map]
  refine List.countP_congr fun c hc => ?_
  obtain ⟨dbPath, stage, gone⟩ := c
  cases stage with
  | connecting b st =>
    by_cases hb : b = a
    · subst hb
      cases gone with
      | true =>
        have hawaits := h.waited _ hc rfl
        cases st <;> simp_all [Stage.awaits, Stage.needs, needsLock, Stage.view,
          PooledConnections.Stage.counts, PooledConnections.Stage.liveConn]
      | false =>
        have hat := hrest _ hc rfl st rfl
        cases st <;> simp [PooledConnections.Stage.atRest, Stage.view, PooledConnections.Stage.counts,
          PooledConnections.Stage.liveConn] at hat ⊢
    · simp [Stage.view, hb, PooledConnections.Stage.counts, PooledConnections.Stage.liveConn]
  | _ => simp [Stage.view, PooledConnections.Stage.counts, PooledConnections.Stage.liveConn]

/-- An entry leaves the cache by an eviction, or another one takes its place. -/
theorem Inv.evicts (h : Inv maxCached root limit s)
    (hstep : SharedPool.step maxCached root e s = some s') {d : Path × Arc}
    (hd : d ∈ s.pool.databases) (hleft : d ∉ s'.pool.databases) :
    (seen s d.2).liveConns = [] ∨ ∃ a, (d.1, a) ∈ s'.pool.databases := by
  rcases step_cases hstep with ⟨dbPath, -, rfl⟩ | ⟨i, c, c', pool, hc, hhere, hacts, rfl⟩
  · exact absurd hd hleft
  · cases hacts with
    | cancel hc' hawaits hpool =>
      subst hpool
      exact absurd (by simpa using hd) hleft
    | turn env stage hc' hturn =>
      rcases databases_of_turn hturn with hsame |
        ⟨a, x, instances, evicted, targetEvictions, ha, hidle, hrest, -⟩ | ⟨a, ha, -, hnew⟩
      · exact absurd (hsame ▸ hd) hleft
      · -- the counter was read under the lock of the instance
        left
        have hsized := h.sized i c hc hhere
        rw [ha] at hsized
        have hpath : d.1 = x.path := by
          by_contra hne
          exact hleft (hrest ▸ mem_remove.2 ⟨hd, hne⟩)
        obtain rfl : d = entryOf x :=
          h.filed.eq_of_path hd (hsized.1.listed _ List.mem_cons_self) hpath
        have hbound := (h.accounts (entryOf x).2).oneOwner.bound
        have hnone : (seen s (entryOf x).2).inst.activeConnections = 0 := hidle
        rw [hnone] at hbound
        exact List.eq_nil_of_length_eq_zero (Nat.le_zero.1 hbound)
      · -- two calls have built the same database
        right
        have hpath : d.1 = fullPath root c.dbPath := by
          by_contra hne
          exact hleft (hnew ▸ List.mem_append_left _ (mem_remove.2 ⟨hd, hne⟩))
        refine ⟨a, ?_⟩
        rw [hpath]
        show _ ∈ pool.databases
        rw [hnew]
        exact List.mem_append_right _ List.mem_cons_self

/-- **The shared pool is sound**, in every interleaving of any calls, drops and calls dropped halfway. -/
theorem shared_pool (h : Reached maxCached root limit s) : Sound maxCached root limit s where
  owners a := (h.inv.accounts a).oneOwner
  exact a hrest := h.inv.exact hrest
  file c hc a conn hstage := (h.inv.filed.arcs c hc a (by rw [hstage]; rfl)).2
  entries d hd := (h.inv.filed.entries d hd).2
  keys := h.inv.filed.keys
  size := h.inv.size
  evicts _ _ hstep _ hd hleft := h.inv.evicts hstep hd hleft

end Cache

/-- Two calls for one database find that it is not in the cache. Both make an instance of it, and the
second one takes the place of the first one. -/
def bothBuild : List Event :=
  [.call (fileAt 'a'), .call (fileAt 'a')] ++ List.replicate 3 (.turn 0 {}) ++
    List.replicate 3 (.turn 1 {}) ++ List.replicate 12 (.turn 0 {}) ++ List.replicate 12 (.turn 1 {})

/-- The instances with a `PooledConnection` that has not been dropped. -/
def liveArcs (s : State) : List Arc :=
  s.callers.filterMap fun c =>
    match c.stage with
    | .connecting a (.live _) => some a
    | _ => none

theorem shared_pool_bothBuild : ∃ s, run 50 dataDir bothBuild .new = some s ∧ liveArcs s = [0, 1] ∧
    s.pool.databases = [(dataDir.join (fileAt 'a'), 1)] ∧ Sound 50 dataDir 2 s := by
  have hrun : (run 50 dataDir bothBuild .new).map (fun s => (liveArcs s, s.pool.databases)) =
      some ([0, 1], [(dataDir.join (fileAt 'a'), 1)]) := by decide +kernel
  have hwithin : within 50 dataDir 2 bothBuild .new = true := by decide +kernel
  obtain ⟨s, hs, hlive⟩ := Option.map_eq_some_iff.1 hrun
  obtain ⟨harcs, hdatabases⟩ := Prod.mk.inj hlive
  exact ⟨s, hs, harcs, hdatabases, shared_pool (Reached.new.run hs hwithin)⟩

end Events.SharedPool
