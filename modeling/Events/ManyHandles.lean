import Events.AtomicLog
import Events.Reopening
import Events.Lib.Knowledge

/-!
# Handles that share a partition

The cache of opened stores may open a partition a second time while a handle of the first time is
still in use. The handles share the catalog and the event files, and each keeps an active partition of
its own: a handle does not learn that another one has rotated. Nothing but the append head of a file
then keeps the versions apart.

* **`Uncorrupted`** — every version is stored once, and no append head is below a version of its file.
* **`OnNewest`** — appends go to a file whose head no stored version exceeds, and a head is set only in
  a file that stores nothing.
* **`versions_kept_apart`** — runs of any handles whose steps are such.
* **`stale_append_collides`** — an append to any other file stores a version twice.
-/

namespace Events

open Proc Program

/-! ## The state -/

/-- The stored versions are 1 to n, each stored once, and every append head is one of them, or zero, and
not below a version of its file. -/
structure Uncorrupted {H : Type} (w : World H) : Prop extends Ledger w where
  bounds : ∀ name head, w.headOf name = some head → 0 ≤ head ∧ head ≤ w.log.length
  heads : ∀ name head, w.headOf name = some head → ∀ row ∈ w.rowsOf name, row.version ≤ head

/-- No event of the partition is newer than `version`. -/
def UpTo {H : Type} (version : Int) (w : World H) : Prop :=
  ∀ row ∈ w.allRows, row.version ≤ version

section States

variable {H : Type} {w w' : World H} {name other : Text} {v head : Int}

theorem uncorrupted_empty : Uncorrupted (World.empty : World H) where
  rows := List.Perm.refl _
  versions := rfl
  bounds name head hhead := by cases hhead
  heads name head hhead := by cases hhead

/-- The files hold the stored events. -/
theorem mem_allRows {row : EventRow} : row ∈ w.allRows ↔ ∃ name, row ∈ w.rowsOf name := by
  constructor
  · intro hrow
    obtain ⟨⟨name, d⟩, hmem, hrow⟩ := List.mem_flatMap.1 hrow
    have hlookup : w.files.lookup name = some d := AList.mem_lookup_iff.2 hmem
    exact ⟨name, by rwa [World.rowsOf, hlookup]⟩
  · rintro ⟨name, hrow⟩
    exact World.rowsOf_subset hrow

/-- Two files store no version in common. -/
theorem Uncorrupted.apart (hi : Uncorrupted w) (hne : name ≠ other) {row row' : EventRow}
    (hrow : row ∈ w.rowsOf name) (hrow' : row' ∈ w.rowsOf other) : row.version ≠ row'.version := by
  have honce : (w.allRows.map EventRow.version).Nodup :=
    hi.perm.nodup_iff.2 (nodup_versionsFrom 0 _)
  have hperm := (w.allRows_perm name).map EventRow.version
  rw [List.map_append] at hperm
  have hsplit := List.nodup_append.1 (hperm.nodup_iff.1 honce)
  apply hsplit.2.2 _ (List.mem_map_of_mem hrow) _ (List.mem_map_of_mem _)
  -- the other file is among those outside
  cases hlookup : w.files.lookup other with
  | none => simp [World.rowsOf, hlookup] at hrow'
  | some d =>
    have herase : (w.files.erase name).lookup other = some d := by
      rw [AList.lookup_erase_ne hne.symm, hlookup]
    have hmem : row' ∈ d.rows := by simpa [World.rowsOf, hlookup] using hrow'
    unfold World.rowsOutside
    exact List.mem_flatMap.2 ⟨⟨other, d⟩, (entries_perm herase).mem_iff.2 List.mem_cons_self, hmem⟩

/-- A head that no stored version exceeds is the number of events. -/
theorem Uncorrupted.head_eq (hi : Uncorrupted w) (hhead : w.headOf name = some head)
    (hnew : UpTo head w) : head = w.log.length := by
  obtain ⟨hpos, hle⟩ := hi.bounds name head hhead
  by_contra hne
  have hmem : (w.log.length : Int) ∈ w.allRows.map EventRow.version := by
    rw [hi.perm.mem_iff, mem_versionsFrom]
    omega
  obtain ⟨row, hrow, hversion⟩ := List.mem_map.1 hmem
  have hrowLe := hnew row hrow
  omega

theorem Uncorrupted.of_files (hi : Uncorrupted w) (hfiles : w'.files = w.files)
    (hlog : w'.log = w.log) : Uncorrupted w' where
  toLedger := hi.of_rows (by rw [World.allRows, hfiles]; exact List.Perm.refl _) hlog
  bounds name head hhead := by
    rw [World.headOf, hfiles] at hhead
    rw [hlog]
    exact hi.bounds name head hhead
  heads name head hhead row hrow := by
    rw [World.headOf, hfiles] at hhead
    rw [World.rowsOf, hfiles] at hrow
    exact hi.heads name head hhead row hrow

/-- Preparing a file keeps the head that it has, or the file stores nothing. -/
theorem Uncorrupted.building (hi : Uncorrupted w) (hb : Building name v w w')
    (hhead : w'.headOf name = w.headOf name ∨
      w.rowsOf name = [] ∧ 0 ≤ v ∧ v ≤ w.log.length) : Uncorrupted w' := by
  have hheads : ∀ other head, w'.headOf other = some head → w.headOf other = some head ∨
      (w.rowsOf other = [] ∧ 0 ≤ head ∧ head ≤ w.log.length) := by
    intro other head hother
    by_cases hname : other = name
    · subst hname
      rcases hhead with hsame | ⟨hempty, hv⟩
      · exact .inl (hsame ▸ hother)
      · rcases hb.head with hsame | hset
        · exact .inl (hsame ▸ hother)
        · obtain rfl : v = head := by simpa [hset] using hother
          exact .inr ⟨hempty, hv⟩
    · exact .inl (hb.headOf_ne hname ▸ hother)
  refine ⟨hi.toLedger.building hb, fun other head hother => ?_, fun other head hother row hrow => ?_⟩
  · rw [hb.log]
    rcases hheads other head hother with hold | ⟨-, hbounds⟩
    · exact hi.bounds other head hold
    · exact hbounds
  · rw [hb.rowsOf other] at hrow
    rcases hheads other head hother with hold | ⟨hempty, -⟩
    · exact hi.heads other head hold row hrow
    · rw [hempty] at hrow
      cases hrow

/-- Where the head could be any, it is the old one. -/
theorem Building.headOf_eq (hb : ∀ v, Building name v w w') : w'.headOf name = w.headOf name := by
  rcases (hb 0).head with h | h
  · exact h
  · rcases (hb 1).head with h' | h'
    · exact h'
    · rw [h] at h'
      cases h'

section Committed

variable {d d' : Db} {ids : Nat → Uuid} {span : SpanContext} {expected : ExpectedVersion}
  {events : List NewEvent} {baseTime : OffsetDateTime} {result : AppendResult}
  (hc : AppendCommitted ids span expected events baseTime d d' head result)
include hc

/-- A batch that is committed behind the newest event. -/
theorem Uncorrupted.committed (hi : Uncorrupted w) (hd : w.files.lookup name = some d)
    (hnew : UpTo head w) :
    Uncorrupted { w.setDb (.eventFile name) d' with log := w.log ++ result.events } ∧
      head = w.log.length ∧ result.events.length = events.length := by
  have hversions := versions_committed hc
  have hlen : result.events.length = events.length := by
    rw [← length_versionsFrom head events.length, ← hversions, List.length_map]
  have hhead : head = w.log.length :=
    hi.head_eq (by rw [World.headOf, hd]; exact hc.head_eq) hnew
  -- the head of the file is now the last version of the batch, the others are as they were
  have hheads : ∀ other head', (w.setDb (.eventFile name) d').headOf other = some head' →
      (other = name ∧ head' = head + events.length) ∨
        (other ≠ name ∧ w.headOf other = some head') := by
    intro other head' hother
    by_cases hname : other = name
    · subst hname
      obtain ⟨id, hdb⟩ := hc.db_eq
      rw [World.headOf, World.lookup_setDb, hdb] at hother
      exact .inl ⟨rfl, (Option.some.inj hother).symm⟩
    · rw [World.headOf, World.lookup_setDb_ne hname] at hother
      exact .inr ⟨hname, hother⟩
  refine ⟨⟨hi.toLedger.committed hd (hhead ▸ hc), fun other head' hother => ?_,
    fun other head' hother row hrow => ?_⟩, hhead, hlen⟩
  · show 0 ≤ head' ∧ head' ≤ ((w.log ++ result.events).length : Int)
    rw [List.length_append, hlen]
    push_cast
    rcases hheads other head' hother with ⟨-, rfl⟩ | ⟨-, hold⟩
    · omega
    · have hbounds := hi.bounds other head' hold
      omega
  · rcases hheads other head' hother with ⟨rfl, rfl⟩ | ⟨hname, hold⟩
    · obtain ⟨id, hdb⟩ := hc.db_eq
      have hmem : row ∈ d.rows ++ result.events.map EventEnvelope.toRow := by
        have : row ∈ (w.setDb (.eventFile other) d').rowsOf other := hrow
        rwa [World.rowsOf_setDb, hdb] at this
      rcases List.mem_append.1 hmem with hrow | hbatch
      · have hle := hnew row (World.rowsOf_subset (by rw [World.rowsOf, hd]; exact hrow))
        omega
      · obtain ⟨e, he, rfl⟩ := List.mem_map.1 hbatch
        have hversion : e.version.get ∈ versionsFrom head events.length := by
          rw [← hversions]
          exact List.mem_map_of_mem he
        exact (mem_versionsFrom.1 hversion).2
    · refine hi.heads other head' hold row ?_
      rw [World.rowsOf, ← World.lookup_setDb_ne hname]
      exact hrow

/-- **A batch that is committed behind an older event** stores a version that another file stores. -/
theorem Uncorrupted.collides (hi : Uncorrupted w) (hd : w.files.lookup name = some d)
    (hstale : ¬ UpTo head w) : ∃ other, other ≠ name ∧
      ∃ row ∈ (w.setDb (.eventFile name) d').rowsOf name,
        ∃ row' ∈ (w.setDb (.eventFile name) d').rowsOf other, row.version = row'.version := by
  have hhead : w.headOf name = some head := by rw [World.headOf, hd]; exact hc.head_eq
  obtain ⟨hpos, -⟩ := hi.bounds name head hhead
  obtain ⟨newer, hnewer, hlt⟩ : ∃ row ∈ w.allRows, head < row.version := by
    unfold UpTo at hstale
    push Not at hstale
    exact hstale
  -- the version after the head is stored already, and not in this file
  have hmem : head + 1 ∈ w.allRows.map EventRow.version := by
    rw [hi.perm.mem_iff, mem_versionsFrom]
    have hle := hi.version_le hnewer
    omega
  obtain ⟨row', hrow', hversion'⟩ := List.mem_map.1 hmem
  obtain ⟨other, hother⟩ := mem_allRows.1 hrow'
  have hne : other ≠ name := by
    rintro rfl
    have hle := hi.heads other head hhead row' hother
    omega
  obtain ⟨id, hdb⟩ := hc.db_eq
  have hfirst : head + 1 ∈ result.events.map fun e => e.version.get := by
    rw [versions_committed hc, mem_versionsFrom]
    have hpos : 0 < events.length := List.length_pos_iff.2 hc.nonempty
    omega
  obtain ⟨e, he, hversion⟩ := List.mem_map.1 hfirst
  refine ⟨other, hne, e.toRow, ?_, row', ?_, hversion.trans hversion'.symm⟩
  · rw [World.rowsOf_setDb, hdb]
    exact List.mem_append_right _ (List.mem_map_of_mem he)
  · rwa [World.rowsOf, World.lookup_setDb_ne hne]

end Committed

end States

/-! ## The steps -/

section Steps

variable {H T : Type} [DecidableEq H] {h : H} {w : World H} {o : StoreOp} {e : StoreEnv}

/-- An append that its expected version admits goes to a file whose head no stored version exceeds,
and a head is set only in a file that stores nothing. -/
def OnNewest [SerdeJson] (c : Config (eventStreams H) T) : Label (eventStreams H) T → Prop
  | .op _ _ (.appendTransaction name expected _ _) _ => ∀ head, c.st.headOf name = some head →
      validateExpectedVersionAgainst expected head = .ok head → UpTo head c.st
  | .op _ _ (.sql (.eventFile name) (.initializeEventFileAppendHead _ _)) _ => c.st.rowsOf name = []
  | _ => True

theorem prepares_of_migrates {s : Stmt} (hs : s.migrates = true) (v : Int) : s.prepares v = true := by
  cases s <;> first | exact hs | cases hs

/-- **The operations that store nothing** keep the versions apart, if a head is set only where nothing
is stored. -/
theorem Uncorrupted.upkeep (hi : Uncorrupted w) (ho : o.isUpkeep = true)
    (hset : ∀ name v id, o = .sql (.eventFile name) (.initializeEventFileAppendHead v id) →
      w.rowsOf name = [] ∧ 0 ≤ v ∧ v ≤ w.log.length) :
    Uncorrupted (World.step h o e w).2 ∧ (World.step h o e w).2.log = w.log := by
  have hcatalog : o.onCatalog = true → Uncorrupted (World.step h o e w).2 ∧
      (World.step h o e w).2.log = w.log := fun ho => by
    have hsame := step_onCatalog (h := h) (e := e) (w := w) ho
    exact ⟨hi.of_files hsame.files hsame.log, hsame.log⟩
  -- an operation that prepares the file, whatever its head is to be
  have hprepare : ∀ name, (∀ v, o.prepares name v = true) → Uncorrupted (World.step h o e w).2 ∧
      (World.step h o e w).2.log = w.log := fun name hp => by
    have hb : ∀ v, Building name v w (World.step h o e w).2 :=
      fun v => step_prepares (hp v) (Building.refl name v w)
    exact ⟨hi.building (hb 0) (.inl (Building.headOf_eq hb)), (hb 0).log⟩
  cases o with
  | appendTransaction name expected events baseTime => cases ho
  | setActive active => exact ⟨hi.of_files rfl rfl, rfl⟩
  | openHandle rotation active => exact ⟨hi.of_files rfl rfl, rfl⟩
  | buildDatabase ref =>
    cases ref with
    | catalog => exact hcatalog rfl
    | eventFile name => exact hprepare name fun v => decide_eq_true rfl
  | sql ref s =>
    cases ref with
    | catalog => exact hcatalog rfl
    | eventFile name =>
      by_cases hs : s.migrates = true
      · refine hprepare name fun v => ?_
        simp [StoreOp.prepares, prepares_of_migrates hs v]
      · cases s with
        | initializeEventFileAppendHead v id =>
          have hb : Building name v w (World.step h (.sql (.eventFile name)
              (.initializeEventFileAppendHead v id)) e w).2 :=
            step_prepares (by simp [StoreOp.prepares, Stmt.prepares]) (Building.refl name v w)
          exact ⟨hi.building hb (.inr (hset name v id rfl)), hb.log⟩
        | _ => exact absurd ho hs
  | _ => exact hcatalog rfl

omit [DecidableEq H] in
/-- **An append** behind the newest event keeps the versions apart; the version that it expects is the
number of events, which it increases. -/
theorem Uncorrupted.appendStep {name : Text} {expected : ExpectedVersion} {events : List NewEvent}
    {baseTime : OffsetDateTime} {r : Except EsError AppendResult} {w' : World H}
    (hi : Uncorrupted w) (hstep : AppendStep name expected events baseTime e w r w')
    (hnew : ∀ head, w.headOf name = some head →
      validateExpectedVersionAgainst expected head = .ok head → UpTo head w) :
    Uncorrupted w' ∧ w.log.length ≤ w'.log.length ∧
      ∀ v, expected = .exact v → (∃ result, r = .ok result) →
        v.get = w.log.length ∧ w.log.length < w'.log.length := by
  cases hstep with
  | @committed d d' head result hd hc =>
    obtain ⟨hi', hhead, hlen⟩ := hi.committed hc hd
      (hnew head (by rw [World.headOf, hd]; exact hc.head_eq) hc.admitted)
    have hpos : 0 < events.length := List.length_pos_iff.2 hc.nonempty
    have hgrown : (w.log ++ result.events).length = w.log.length + events.length := by
      rw [List.length_append, hlen]
    refine ⟨hi', by rw [hgrown]; omega, ?_⟩
    rintro v rfl -
    refine ⟨?_, by rw [hgrown]; omega⟩
    rw [← hhead]
    exact admitted_expectedNumber hc.admitted rfl
  | refused hw hfiles hver =>
    refine ⟨hi.building (hw 0) (.inl (Building.headOf_eq hw)), by rw [(hw 0).log], ?_⟩
    rintro v - ⟨result, hresult⟩
    cases hresult

/-- The answer of a read of an append head. -/
theorem headOf_of_read {name : Text} {row : HeadRow}
    (h : (World.step h (.sql (.eventFile name) .readEventFileAppendHead) e w).1 = .ok (some row)) :
    w.headOf name = some row.currentVersion := by
  simp only [World.step, World.stepSql] at h
  split at h
  · cases h
  · cases h
  · rename_i d _ hdb
    split at h
    · rename_i a d' hex
      obtain ⟨hhead, -⟩ := Stmt.exec_readHead.1 hex
      cases h
      have hlookup : w.files.lookup name = some d := hdb
      simp [World.headOf, hlookup, Db.headVersion, hhead]
    · cases h

end Steps

/-! ## What a call knows -/

/-- What a call appends, and the append heads that it has read. -/
structure Known where
  status : CallStatus
  heads : List Int := []

namespace Known

def learn : (o : StoreOp) → o.Resp → Known → Known
  | .appendTransaction _ _ _ _, answer, k => { k with status := k.status.decide answer }
  | .sql (.eventFile _) .readEventFileAppendHead, .ok (some row), k =>
    { k with heads := row.currentVersion :: k.heads }
  | _, _, k => k

/-- A call stores no event but in its transaction, and sets a head to zero or to one it has read. -/
def ask (k : Known) : Cmd LockNote StoreI → Prop
  | .op (.appendTransaction _ expected events _) => k.status = .pending expected events
  | .op o => ∃ v, o.setsHeadTo v = true ∧ (v = 0 ∨ v ∈ k.heads)
  | _ => True

theorem learn_upkeep {o : StoreOp} (ho : o.isUpkeep = true) (x : o.Resp) (k : Known) :
    (k.learn o x).status = k.status ∧ k.heads ⊆ (k.learn o x).heads := by
  unfold learn
  split
  · cases ho
  · exact ⟨rfl, List.subset_cons_self _ _⟩
  · exact ⟨rfl, List.Subset.refl _⟩

end Known

/-- The account of the calls. -/
def headAccount [SerdeJson] (H : Type) [DecidableEq H] : Account (eventStreams H) Known where
  learn := Known.learn
  expect _ _ _ := True
  ask := Known.ask

/-- An append of events that succeeds has had its transaction committed. -/
def Committed : StreamCall → Except Abort StreamAns → Known → Prop
  | .append _ _ expected events, .ok (.appended result), k =>
    events = [] ∨ k.status = .decided expected events (.ok result)
  | _, _, _ => True

section Code

variable {H : Type} [DecidableEq H] {k : Known} {v : Int} {expected : ExpectedVersion}
  {events : List NewEvent}

/-- A body that sets no head but to one that the call may use. -/
theorem follows_setsHeadTo [SerdeJson] {α : Type} {p : StoreProgram α}
    (hp : p.All fun o : StoreOp => o.setsHeadTo v = true) (hv : v = 0 ∨ v ∈ k.heads) :
    (headAccount H).follows p.lift (fun _ k' => k'.status = k.status) k := by
  refine Account.follows_mono (Account.follows_of_all (J := fun k' => k'.status = k.status ∧
    (v = 0 ∨ v ∈ k'.heads)) hp ⟨rfl, hv⟩ fun o ho k' hk' => ⟨?_, fun x _ => ?_⟩) fun _ _ h => h.1
  · have hask : ∃ v, o.setsHeadTo v = true ∧ (v = 0 ∨ v ∈ k'.heads) := ⟨v, ho, hk'.2⟩
    cases o <;> first | exact hask | cases ho
  · obtain ⟨hstatus, hheads⟩ := Known.learn_upkeep (isUpkeep_of_setsHeadTo ho) x k'
    exact ⟨hstatus.trans hk'.1, hk'.2.imp_right fun hv => hheads hv⟩

/-- A body that only looks. -/
theorem follows_looks [SerdeJson] {α : Type} {p : StoreProgram α}
    (hp : p.All fun o : StoreOp => o.isPassive = true) :
    (headAccount H).follows p.lift (fun _ k' => k'.status = k.status) k :=
  follows_setsHeadTo (v := 0) (hp.mono fun _ => setsHeadTo_of_isPassive) (.inl rfl)

/-- A read of an append head, which the call knows from then on. -/
theorem follows_readEventFileAppendHead [SerdeJson] (name : Text) :
    (headAccount H).follows (readEventFileAppendHead name).lift
      (fun r k' => k'.status = k.status ∧ ∀ head, r = .ok head → head ∈ k'.heads) k := by
  refine ⟨⟨0, rfl, .inl rfl⟩, fun answer _ => ?_⟩
  cases answer with
  | error err => exact ⟨rfl, fun head h => by cases h⟩
  | ok row =>
    cases row with
    | none => exact ⟨rfl, fun head h => by cases h⟩
    | some row =>
      refine ⟨rfl, fun head h => ?_⟩
      obtain rfl : row.currentVersion = head := by simpa [ofExcept, orEs, headOfRow] using h
      exact List.mem_cons_self

/-- **A rotation** sets the head of the new file to the one that it has read. -/
theorem follows_rotatePartition_head [SerdeJson] (rotation : RotationPolicy) (nowMs : Int) :
    (headAccount H).follows (rotatePartition rotation nowMs) (fun _ k' => k'.status = k.status) k := by
  refine Account.follows_withWrite trivial (fun _ => trivial) ?_
  unfold rotatePartitionLocked
  simp only [bind_eq]
  rw [lift_bind, Account.follows_bind]
  have hread : readActive.All fun o : StoreOp => o.isPassive = true :=
    ⟨rfl, fun active => by cases active <;> trivial⟩
  refine Account.follows_mono (follows_looks hread) fun r k₁ hk₁ => ?_
  cases r with
  | error err => exact hk₁
  | ok active =>
    show (headAccount H).follows ((ofAbort _).bind _).lift _ _
    cases hnew : determineNewPartitionInfo rotation active.startMs active.ordinal nowMs with
    | error err => exact hk₁
    | ok new =>
      show (headAccount H).follows ((getConnection (.eventFile active.name)).bind _).lift _ _
      rw [lift_bind, Account.follows_bind]
      refine Account.follows_mono (follows_looks (all_getConnection rfl)) fun r k₂ hk₂ => ?_
      cases r with
      | error err => exact hk₂.trans hk₁
      | ok _ =>
        show (headAccount H).follows ((readEventFileAppendHead active.name).bind _).lift _ _
        rw [lift_bind, Account.follows_bind]
        refine Account.follows_mono (follows_readEventFileAppendHead active.name)
          fun r k₃ hk₃ => ?_
        cases r with
        | error err => exact hk₃.1.trans (hk₂.trans hk₁)
        | ok head =>
          have hstart := determineNewPartitionInfo_startMs hnew
          have hrotate : (rotateTo active.name head ⟨new.1, new.2.1, new.2.2⟩).All fun o : StoreOp =>
              o.setsHeadTo head = true := (all_rotateTo hstart).mono fun _ ho => ho.2
          exact Account.follows_mono (follows_setsHeadTo hrotate (.inr (hk₃.2 head rfl)))
            fun _ _ hk₄ => hk₄.trans (hk₃.1.trans (hk₂.trans hk₁))

theorem follows_maybeRotate_head [SerdeJson] (rotation : RotationPolicy) :
    (headAccount H).follows (maybeRotate rotation) (fun _ k' => k'.status = k.status) k := by
  unfold maybeRotate
  rw [bind_eq, Account.follows_bind]
  refine Account.follows_withRead (fun _ => ⟨trivial, trivial⟩)
    (Account.follows_mono (follows_looks (all_rotationDue rotation)) fun r k₁ hk₁ => ?_)
  cases r with
  | error err => exact hk₁
  | ok due =>
    cases due with
    | none => exact hk₁
    | some nowMs =>
      exact Account.follows_mono (follows_rotatePartition_head rotation nowMs)
        fun _ _ hk₂ => hk₂.trans hk₁

/-- By induction on the passes of the loop. -/
theorem follows_rotateUntilCurrentWindow_head [SerdeJson] (rotation : RotationPolicy) (nowMs : Int)
    (fuel : Nat) : (headAccount H).follows (rotateUntilCurrentWindow rotation nowMs fuel)
      (fun _ k' => k'.status = k.status) k := by
  induction fuel generalizing k with
  | zero => rfl
  | succ fuel ih =>
    unfold rotateUntilCurrentWindow
    rw [bind_eq, Account.follows_bind]
    refine Account.follows_withRead (fun _ => ⟨trivial, trivial⟩) (Account.follows_mono
      (follows_looks (all_inCurrentWindow rotation nowMs)) fun r k₁ hk₁ => ?_)
    cases r with
    | error err => exact hk₁
    | ok current =>
      cases current with
      | true => exact hk₁
      | false =>
        show (headAccount H).follows ((rotatePartition rotation nowMs).bind _) _ _
        rw [Account.follows_bind]
        refine Account.follows_mono (follows_rotatePartition_head rotation nowMs) fun r k₂ hk₂ => ?_
        cases r with
        | error err => exact hk₂.trans hk₁
        | ok _ => exact Account.follows_mono ih fun _ _ hk₃ => hk₃.trans (hk₂.trans hk₁)

/-- The transaction of an append. -/
theorem follows_appendLocked_pending [SerdeJson] (baseTime : OffsetDateTime)
    (hk : k.status = .pending expected events) :
    (headAccount H).follows (appendLocked expected events baseTime).lift
      (fun r k' => ∀ result, r = .ok result → k'.status = .decided expected events (.ok result))
      k := by
  unfold appendLocked
  simp only [bind_eq, lift_bind]
  rw [Account.follows_bind]
  have hread : readActive.All fun o : StoreOp => o.isPassive = true :=
    ⟨rfl, fun active => by cases active <;> trivial⟩
  refine Account.follows_mono (follows_looks hread) fun r k₁ hk₁ => ?_
  cases r with
  | error err => exact fun result h => by cases h
  | ok active =>
    show (headAccount H).follows (Program.bind _ _) _ _
    rw [Account.follows_bind]
    refine Account.follows_mono (follows_looks (all_getConnection rfl)) fun r k₂ hk₂ => ?_
    have hpending : k₂.status = .pending expected events := hk₂.trans (hk₁.trans hk)
    cases r with
    | error err => exact fun result h => by cases h
    | ok _ =>
      refine ⟨hpending, fun answer _ => ?_⟩
      cases answer with
      | error err => exact fun result h => by cases h
      | ok result =>
        intro result' h
        obtain rfl : result = result' := by simpa [orEs] using h
        show k₂.status.decide _ = _
        rw [hpending]
        rfl

theorem follows_append_pending [SerdeJson] (rotation : RotationPolicy) (fuel : Nat)
    (hk : k.status = .pending expected events) :
    (headAccount H).follows (append rotation fuel expected events)
      (fun r k' => ∀ result, r = .ok result →
        events = [] ∨ k'.status = .decided expected events (.ok result)) k := by
  unfold append
  rw [bind_eq, Account.follows_bind]
  refine Account.follows_mono (follows_maybeRotate_head rotation) fun r k₁ hk₁ => ?_
  cases r with
  | error err => exact fun result h => by cases h
  | ok _ =>
    show (headAccount H).follows (if events.isEmpty then _ else _) _ _
    split
    · rename_i hempty
      exact fun _ _ => .inl (List.isEmpty_iff.1 hempty)
    · cases hvalid : validateEvents events with
      | error err => exact fun result h => by cases h
      | ok _ =>
        refine ⟨⟨0, rfl, .inl rfl⟩, fun t _ => ?_⟩
        show (headAccount H).follows (appendAt rotation fuel expected events t.unixTimestampMs
          (OffsetDateTime.fromUnixTimestampNanos (t.unixTimestampMs * 1000000))) _ k₁
        cases OffsetDateTime.fromUnixTimestampNanos (t.unixTimestampMs * 1000000) with
        | none => exact fun result h => by cases h
        | some baseTime =>
          show (headAccount H).follows ((rotateUntilCurrentWindow rotation _ fuel).bind _) _ _
          rw [Account.follows_bind]
          refine Account.follows_mono (follows_rotateUntilCurrentWindow_head rotation _ fuel)
            fun r k₂ hk₂ => ?_
          cases r with
          | error err => exact fun result h => by cases h
          | ok _ =>
            exact Account.follows_withWrite trivial (fun _ => trivial) (Account.follows_mono
              (follows_appendLocked_pending baseTime (hk₂.trans (hk₁.trans hk)))
              fun r k₃ hr result h => .inr (hr result h))

/-- **Every call follows the account.** -/
theorem follows_call [SerdeJson] (call : StreamCall) :
    (headAccount H).follows call.code (Committed call) ⟨.ofCall call, []⟩ := by
  have hquiet : ∀ {α : Type} {p : StreamProgram α} {f : α → StreamAns} {k : Known}
      {Q : Except Abort StreamAns → Known → Prop}, (∀ r k, Q r k) →
      (headAccount H).follows p (fun _ k' => k'.status = k.status) k →
      (headAccount H).follows (p.bind fun x => pure (f x)) Q k := by
    intro α p f k Q hQ hp
    rw [Account.follows_bind]
    refine Account.follows_mono hp fun r k' _ => ?_
    cases r <;> exact hQ _ _
  cases call with
  | openPartitioned rotation =>
    exact hquiet (fun _ _ => trivial) (Account.follows_withWrite trivial (fun _ => trivial)
      (follows_setsHeadTo (all_openPartitioned rotation) (.inl rfl)))
  | append rotation fuel expected events =>
    show (headAccount H).follows ((append rotation fuel expected events).bind _) _ _
    rw [Account.follows_bind]
    refine Account.follows_mono (follows_append_pending rotation fuel rfl) fun r k hr => ?_
    cases r with
    | error err => trivial
    | ok result => exact hr result rfl
  | maybeRotate rotation => exact hquiet (fun _ _ => trivial) (follows_maybeRotate_head rotation)
  | loadAfterVersion rotation cursor limit =>
    exact hquiet (fun _ _ => trivial)
      (follows_looks (all_loadAfterVersion (fun _ => rfl) (fun _ _ hs => hs) cursor limit))
  | currentVersion rotation =>
    exact hquiet (fun _ _ => trivial) (Account.follows_withRead (fun _ => ⟨trivial, trivial⟩)
      (follows_looks all_currentVersionLocked))

end Code

/-! ## Runs -/

section Runs

variable [SerdeJson] {H T : Type} [DecidableEq H] [DecidableEq T] {c c' : Config (eventStreams H) T}
  {l : Label (eventStreams H) T} {tr : List (Label (eventStreams H) T × Config (eventStreams H) T)}
  {answered : List EventStreamVersion} {know know' : T → Known} {v : EventStreamVersion}

/-- The version on which a step answers that a batch was appended. -/
def exactAnswer : Label (eventStreams H) T → Option EventStreamVersion
  | .respond _ _ (.append _ _ (.exact version) (_ :: _)) (.ok (.appended _)) => some version
  | _ => none

/-- The versions on which a run answers that a batch was appended. -/
def exactAnswers (tr : List (Label (eventStreams H) T × Config (eventStreams H) T)) :
    List EventStreamVersion :=
  tr.filterMap fun x => exactAnswer x.1

/-- A call in progress has appended a batch on the version. -/
def Won (c : Config (eventStreams H) T) (know : T → Known) (t : T) (v : EventStreamVersion) : Prop :=
  (c.tasks t).isSome ∧ ∃ events result, (know t).status = .decided (.exact v) events (.ok result)

/-- What holds at every moment of a run, `answered` being the versions on which appends were answered:
each of these and of those that a call in progress has won was the number of events once, and was won
once; and the heads that the calls have read were the number of events once. -/
structure Apart (answered : List EventStreamVersion) (c : Config (eventStreams H) T)
    (know : T → Known) : Prop where
  uncorrupted : Uncorrupted c.st
  follows : (headAccount H).Answered Committed c know
  known : ∀ t, ∀ head ∈ (know t).heads, 0 ≤ head ∧ head ≤ c.st.log.length
  once : answered.Nodup
  passed : ∀ v ∈ answered, v.get < c.st.log.length
  won : ∀ t v, Won c know t v → v.get < c.st.log.length ∧ v ∉ answered
  single : ∀ t u v, Won c know t v → Won c know u v → t = u

omit [DecidableEq T] in
/-- A step that wins nothing. -/
theorem Apart.carry (ha : Apart answered c know) (hi : Uncorrupted c'.st)
    (hF : (headAccount H).Answered Committed c' know') (hlog : c.st.log.length ≤ c'.st.log.length)
    (hknown : ∀ t, ∀ head ∈ (know' t).heads, 0 ≤ head ∧ head ≤ c'.st.log.length)
    (hwon : ∀ t v, Won c' know' t v → Won c know t v) : Apart answered c' know' where
  uncorrupted := hi
  follows := hF
  known := hknown
  once := ha.once
  passed v hv := (ha.passed v hv).trans_le (by exact_mod_cast hlog)
  won t v h := (ha.won t v (hwon t v h)).imp_left fun hlt => hlt.trans_le (by exact_mod_cast hlog)
  single t u v h h' := ha.single t u v (hwon t v h) (hwon u v h')

omit [DecidableEq T] in
theorem Apart.known_mono {n : Nat} (ha : Apart answered c know) (hlog : c.st.log.length ≤ n) (t : T) :
    ∀ head ∈ (know t).heads, 0 ≤ head ∧ head ≤ n := fun head hhead =>
  (ha.known t head hhead).imp_right fun hle => hle.trans (by exact_mod_cast hlog)

/-- The call `t` has gone on; what it knows is `k`. -/
theorem won_advance {t u : T} {h : H} {call : StreamCall} {s : World H} {L : H → RwLock T}
    {p : Program (locked LockNote StoreI) Abort StreamAns} {k : Known}
    (hwon : Won ⟨s, L, c.advance t h call p⟩ (Function.update know t k) u v) :
    (u = t ∧ ∃ events result, k.status = .decided (.exact v) events (.ok result)) ∨
      u ≠ t ∧ Won c know u v := by
  obtain ⟨hsome, events, result, hknow⟩ := hwon
  by_cases hut : u = t
  · subst hut
    rw [Function.update_self] at hknow
    exact .inl ⟨rfl, events, result, hknow⟩
  · rw [Function.update_of_ne hut] at hknow
    simp only [Config.advance, Function.update_of_ne hut] at hsome
    exact .inr ⟨hut, hsome, events, result, hknow⟩

/-- A lock command, or an operation that stores nothing: the call goes on with its status. -/
theorem Apart.advance {t : T} {h : H} {call : StreamCall} {s : World H} {L : H → RwLock T}
    {p q : Program (locked LockNote StoreI) Abort StreamAns} {k : Known}
    (ha : Apart answered c know) (ht : c.tasks t = some ⟨h, call, q⟩) (hi : Uncorrupted s)
    (hlog : s.log = c.st.log) (hstatus : k.status = (know t).status)
    (hheads : ∀ head ∈ k.heads, 0 ≤ head ∧ head ≤ c.st.log.length)
    (hF : (headAccount H).Answered Committed ⟨s, L, c.advance t h call p⟩
      (Function.update know t k)) :
    Apart answered ⟨s, L, c.advance t h call p⟩ (Function.update know t k) := by
  refine ha.carry hi hF (by rw [hlog]) (fun u => ?_) fun u v hwon => ?_
  · show ∀ head ∈ (Function.update know t k u).heads, 0 ≤ head ∧ head ≤ (s.log.length : Int)
    rw [hlog]
    by_cases hut : u = t
    · subst hut
      rwa [Function.update_self]
    · rw [Function.update_of_ne hut]
      exact ha.known u
  · rcases won_advance hwon with ⟨rfl, hdecided⟩ | ⟨-, hwon⟩
    · rw [hstatus] at hdecided
      exact ⟨by rw [ht]; rfl, hdecided⟩
    · exact hwon

omit [DecidableEq T] in
/-- An operation that stores nothing teaches a call at most a head. -/
theorem Apart.learned (ha : Apart answered c know) {t : T} {h : H} {o : StoreOp} {e : StoreEnv} :
    ∀ head ∈ ((know t).learn o (World.step h o e c.st).1).heads,
      0 ≤ head ∧ head ≤ c.st.log.length := by
  cases o with
  | sql ref s =>
    cases ref with
    | catalog => exact ha.known t
    | eventFile name =>
      cases s with
      | readEventFileAppendHead =>
        cases hread : (World.step h (.sql (.eventFile name) .readEventFileAppendHead) e c.st).1 with
        | error err => exact ha.known t
        | ok row =>
          cases row with
          | none => exact ha.known t
          | some row =>
            intro head hhead
            rcases List.mem_cons.1 hhead with rfl | hhead
            · exact ha.uncorrupted.bounds name _ (headOf_of_read hread)
            · exact ha.known t head hhead
      | _ => exact ha.known t
  | _ => exact ha.known t

/-- The transaction of an append wins the version that it expects, if it is committed. -/
theorem Apart.append {t : T} {h : H} {call : StreamCall} {name : Text} {expected : ExpectedVersion}
    {events : List NewEvent} {baseTime : OffsetDateTime} {e : StoreEnv}
    {L : H → RwLock T} {p : Program (locked LockNote StoreI) Abort StreamAns} {k : Known}
    (ha : Apart answered c know)
    (hnew : ∀ head, c.st.headOf name = some head →
      validateExpectedVersionAgainst expected head = .ok head → UpTo head c.st)
    (hstatus : k.status = .decided expected events (World.step h
      (.appendTransaction name expected events baseTime) e c.st).1)
    (hheads : k.heads = (know t).heads)
    (hF : (headAccount H).Answered Committed ⟨(World.step h
        (.appendTransaction name expected events baseTime) e c.st).2, L, c.advance t h call p⟩
      (Function.update know t k)) :
    Apart answered ⟨(World.step h (.appendTransaction name expected events baseTime) e c.st).2, L,
        c.advance t h call p⟩ (Function.update know t k) := by
  have hstep := step_appendTransaction expected events baseTime name (h := h) (e := e) (w := c.st)
  generalize (World.step h (.appendTransaction name expected events baseTime) e c.st).1 = r,
    (World.step h (.appendTransaction name expected events baseTime) e c.st).2 = s
    at hstep hF hstatus ⊢
  obtain ⟨hi, hlog, hexact⟩ := ha.uncorrupted.appendStep hstep hnew
  -- the call has won at most the version that it expects, which was the number of events
  have hmine : ∀ {v : EventStreamVersion}, (∃ events' result, k.status =
      .decided (.exact v) events' (.ok result)) →
      v.get = c.st.log.length ∧ c.st.log.length < s.log.length := by
    rintro v ⟨events', result, hdecided⟩
    rw [hstatus] at hdecided
    cases hdecided
    exact hexact v rfl ⟨result, rfl⟩
  refine ⟨hi, hF, fun u => ?_, ha.once, fun v hv => ?_, fun u v hwon => ?_,
    fun u u' v hwon hwon' => ?_⟩
  · have hknown := ha.known_mono hlog
    by_cases hut : u = t
    · subst hut
      rw [Function.update_self, hheads]
      exact hknown u
    · rw [Function.update_of_ne hut]
      exact hknown u
  · have hlt := ha.passed v hv
    show v.get < s.log.length
    omega
  · show v.get < s.log.length ∧ v ∉ answered
    rcases won_advance hwon with ⟨rfl, hdecided⟩ | ⟨-, hold⟩
    · obtain ⟨heq, hlt⟩ := hmine hdecided
      refine ⟨by omega, fun hv => ?_⟩
      have hpassed := ha.passed v hv
      omega
    · refine (ha.won u v hold).imp_left fun hlt => ?_
      omega
  · rcases won_advance hwon with ⟨rfl, hdecided⟩ | ⟨-, hold⟩
    · rcases won_advance hwon' with ⟨rfl, -⟩ | ⟨-, hold'⟩
      · rfl
      · have hlt := (ha.won u' v hold').1
        exact absurd (hmine hdecided).1 hlt.ne
    · rcases won_advance hwon' with ⟨rfl, hdecided⟩ | ⟨-, hold'⟩
      · have hlt := (ha.won u v hold).1
        exact absurd (hmine hdecided).1 hlt.ne
      · exact ha.single u u' v hold hold'

/-- The answer of a call hands what it has won over to the answered ones. -/
theorem Apart.respond {t : T} {h : H} {call : StreamCall} {r : Except Abort StreamAns}
    {q : Program (locked LockNote StoreI) Abort StreamAns} (ha : Apart answered c know)
    (ht : c.tasks t = some ⟨h, call, q⟩) (hpost : Committed call r (know t))
    (hF : (headAccount H).Answered Committed { c with tasks := Function.update c.tasks t none }
      know) :
    Apart (answered ++ (exactAnswer (.respond t h call r : Label (eventStreams H) T)).toList)
      { c with tasks := Function.update c.tasks t none } know := by
  -- the task that answers is gone from the tasks, the others keep what they know
  have hwon : ∀ {u v}, Won { c with tasks := Function.update c.tasks t none } know u v →
      u ≠ t ∧ Won c know u v := by
    rintro u v ⟨hsome, hknow⟩
    by_cases hut : u = t
    · subst hut
      simp at hsome
    · exact ⟨hut, by simpa [Function.update_of_ne hut] using hsome, hknow⟩
  cases hanswer : exactAnswer (.respond t h call r : Label (eventStreams H) T) with
  | none =>
    rw [Option.toList_none, List.append_nil]
    exact ha.carry ha.uncorrupted hF le_rfl ha.known fun u v hw => (hwon hw).2
  | some version =>
    -- an answer of an exact append is a version that this task has won
    have hmine : Won c know t version := by
      unfold exactAnswer at hanswer
      split at hanswer
      · rename_i heq
        cases heq
        cases hanswer
        rcases hpost with hempty | hdecided
        · cases hempty
        · exact ⟨by rw [ht]; rfl, _, _, hdecided⟩
      · cases hanswer
    obtain ⟨hpassed, hnew⟩ := ha.won t version hmine
    have hmem : ∀ v, v ∈ answered ++ [version] ↔ v ∈ answered ∨ v = version := by simp
    -- the answer is new, and no other task has won it
    refine ⟨ha.uncorrupted, hF, ha.known, ?_, fun v hv => ?_, fun u v hw => ?_,
      fun u u' v hw hw' => ?_⟩
    · refine List.nodup_append.2 ⟨ha.once, List.nodup_singleton _, fun a hmem b hb => ?_⟩
      rw [List.mem_singleton.1 hb]
      exact fun heq => hnew (heq ▸ hmem)
    · rcases (hmem v).1 hv with hv | rfl
      · exact ha.passed v hv
      · exact hpassed
    · obtain ⟨hut, hw⟩ := hwon hw
      refine ⟨(ha.won u v hw).1, fun hv => ?_⟩
      rcases (hmem v).1 hv with hv | rfl
      · exact (ha.won u v hw).2 hv
      · exact hut (ha.single u t v hw hmine)
    · exact ha.single u u' v (hwon hw).2 (hwon hw').2

/-- An operation, by what the call was asked for. -/
theorem Apart.op {t : T} {h : H} {call : StreamCall} {o : StoreOp} {e : StoreEnv}
    {k : o.Resp → Program (locked LockNote StoreI) Abort StreamAns}
    (ha : Apart answered c know) (ht : c.tasks t = some ⟨h, call, .call (.op o) k⟩)
    (hnew : OnNewest c (.op t h o e : Label (eventStreams H) T))
    (hF : (headAccount H).Answered Committed ⟨(World.step h o e c.st).2, c.lock,
        c.advance t h call (k (World.step h o e c.st).1)⟩
      (Function.update know t ((know t).learn o (World.step h o e c.st).1))) :
    Apart answered ⟨(World.step h o e c.st).2, c.lock,
        c.advance t h call (k (World.step h o e c.st).1)⟩
      (Function.update know t ((know t).learn o (World.step h o e c.st).1)) := by
  have hask : (know t).ask (.op o) := (ha.follows t _ ht).1
  by_cases ho : o.isAppend = true
  · cases o with
    | appendTransaction name expected events baseTime =>
      refine ha.append hnew ?_ rfl hF
      show (know t).status.decide _ = _
      rw [show (know t).status = .pending expected events from hask]
      rfl
    | _ => cases ho
  · obtain ⟨v, hsets, hv⟩ : ∃ v, o.setsHeadTo v = true ∧ (v = 0 ∨ v ∈ (know t).heads) := by
      cases o <;> first | exact hask | exact absurd rfl ho
    have hupkeep := isUpkeep_of_setsHeadTo hsets
    obtain ⟨hi, hlog⟩ := ha.uncorrupted.upkeep (h := h) (e := e) hupkeep
      fun name v' id heq => by
        subst heq
        obtain rfl : v' = v := of_decide_eq_true hsets
        refine ⟨hnew, ?_⟩
        rcases hv with rfl | hv
        · exact ⟨le_rfl, by omega⟩
        · exact ha.known t v' hv
    exact ha.advance ht hi hlog (Known.learn_upkeep hupkeep _ _).1 ha.learned hF

/-- **One step.** -/
theorem Apart.step (ha : Apart answered c know) (hstep : Step c l c') (hnew : OnNewest c l) :
    ∃ know', Apart (answered ++ (exactAnswer l).toList) c' know' := by
  have hF := Account.answered_step (fun call => ⟨.ofCall call, []⟩) ha.follows hstep
    (fun _ _ _ _ _ => trivial) fun _ _ call _ => follows_call call
  have hquiet : ∀ {know'}, exactAnswer l = none → Apart answered c' know' →
      ∃ know', Apart (answered ++ (exactAnswer l).toList) c' know' := fun {know'} hnone h =>
    ⟨know', by rwa [hnone, Option.toList_none, List.append_nil]⟩
  -- a lock command leaves a call what it knew
  have hlock : ∀ {t : T} {h : H} {call : StreamCall} {L : H → RwLock T}
      {p q : Program (locked LockNote StoreI) Abort StreamAns},
      c.tasks t = some ⟨h, call, q⟩ →
      (headAccount H).Answered Committed ⟨c.st, L, c.advance t h call p⟩ know →
      Apart answered ⟨c.st, L, c.advance t h call p⟩ know := fun {t h call L p q} ht hF => by
    have hsame := Function.update_eq_self t know
    rw [← hsame] at hF ⊢
    exact ha.advance ht ha.uncorrupted rfl rfl (ha.known t) hF
  cases hstep with
  | invoke t h call hfree hready =>
    refine hquiet rfl (ha.carry ha.uncorrupted hF le_rfl (fun u => ?_) fun u v hwon => ?_)
    · show ∀ head ∈ (Function.update know t ⟨.ofCall call, []⟩ u).heads, _
      by_cases hut : u = t
      · subst hut
        rw [Function.update_self]
        exact fun head hhead => by cases hhead
      · rw [Function.update_of_ne hut]
        exact ha.known u
    · rcases won_advance hwon with ⟨-, events, result, hdecided⟩ | ⟨-, hwon⟩
      · cases call <;> cases hdecided
      · exact hwon
  | op t h call o k e ht => exact hquiet rfl (ha.op ht hnew hF)
  | acquireRead t h call k ht => exact hquiet rfl (hlock ht hF)
  | releaseRead t h call k ht => exact hquiet rfl (hlock ht hF)
  | acquireWrite t h call n k ht => exact hquiet rfl (hlock ht hF)
  | releaseWrite t h call k ht => exact hquiet rfl (hlock ht hF)
  | respond t h call r ht hr => exact ⟨_, ha.respond ht (ha.follows t _ ht) hF⟩
  | restart =>
    refine hquiet rfl (ha.carry (ha.uncorrupted.of_files rfl rfl) hF le_rfl ha.known ?_)
    rintro u v ⟨hsome, -⟩
    cases hsome

omit [DecidableEq T] in
theorem apart_idle : Apart [] (Config.idle T (World.empty : World H)) fun _ => ⟨.other, []⟩ where
  uncorrupted := uncorrupted_empty
  follows t task htask := by cases htask
  known t head hhead := by cases hhead
  once := List.nodup_nil
  passed v hv := by cases hv
  won t v hwon := by cases hwon.1
  single t u v hwon := by cases hwon.1

/-- By induction on the run. -/
theorem Apart.run (ha : Apart answered c know) (hrun : IsRun OnNewest c tr) :
    (∀ x ∈ statesOf c tr, Uncorrupted x.st) ∧ (answered ++ exactAnswers tr).Nodup := by
  induction tr generalizing c know answered with
  | nil => exact ⟨by simpa [statesOf] using ha.uncorrupted, by simpa [exactAnswers] using ha.once⟩
  | cons x tr ih =>
    obtain ⟨l, c'⟩ := x
    obtain ⟨hstep, hnew, hrest⟩ := hrun
    obtain ⟨know', hnext⟩ := ha.step hstep hnew
    obtain ⟨hstates, hanswers⟩ := ih hnext hrest
    refine ⟨fun y hy => ?_, ?_⟩
    · rcases List.mem_cons.1 hy with rfl | hy
      · exact ha.uncorrupted
      · exact hstates y hy
    · have hsplit : exactAnswers ((l, c') :: tr) = (exactAnswer l).toList ++ exactAnswers tr := by
        unfold exactAnswers
        rw [List.filterMap_cons]
        cases exactAnswer l <;> rfl
      rwa [hsplit, ← List.append_assoc]

/-- **Handles that share a partition** keep the versions apart, in every run of any handles that is
such, restarts included: at every moment the stored versions are 1 to n, each stored once, no two event
files store a version in common, and no append head is below a version of its file; and of the appends
of events that expect the same version at most one succeeds. -/
theorem versions_kept_apart (hrun : IsRun OnNewest (Config.idle T (World.empty : World H)) tr) :
    (∀ c ∈ statesOf (Config.idle T (World.empty : World H)) tr,
      (∃ n : Nat, (c.st.allRows.map EventRow.version).Perm (versionsFrom 0 n)) ∧
      (∀ name other, name ≠ other → ∀ row ∈ c.st.rowsOf name, ∀ row' ∈ c.st.rowsOf other,
        row.version ≠ row'.version) ∧
      ∀ name head, c.st.headOf name = some head → ∀ row ∈ c.st.rowsOf name, row.version ≤ head) ∧
    (exactAnswers tr).Nodup := by
  obtain ⟨hstates, hanswers⟩ := apart_idle.run hrun
  refine ⟨fun c hc => ⟨⟨_, (hstates c hc).perm⟩, ?_, (hstates c hc).heads⟩, hanswers⟩
  exact fun name other hne row hrow row' hrow' => (hstates c hc).apart hne hrow hrow'

/-- **A stale append collides**: in a state that such runs reach, a transaction that is committed to a
file whose head is below a stored version stores a version that another file stores. -/
theorem stale_append_collides (hrun : IsRun OnNewest (Config.idle T (World.empty : World H)) tr)
    {t : T} {h : H} {name : Text} {expected : ExpectedVersion} {events : List NewEvent}
    {baseTime : OffsetDateTime} {e : StoreEnv} {result : AppendResult} {head : Int}
    (hstep : Step (lastOf (Config.idle T World.empty) tr)
      (.op t h (.appendTransaction name expected events baseTime) e) c')
    (hcommitted : (World.step h (.appendTransaction name expected events baseTime) e
      (lastOf (Config.idle T World.empty) tr).st).1 = .ok result)
    (hhead : (lastOf (Config.idle T World.empty) tr).st.headOf name = some head)
    (hstale : ∃ row ∈ (lastOf (Config.idle T World.empty) tr).st.allRows, head < row.version) :
    ∃ other, other ≠ name ∧ ∃ row ∈ c'.st.rowsOf name, ∃ row' ∈ c'.st.rowsOf other,
      row.version = row'.version := by
  have hi := (apart_idle.run hrun).1 _ (lastOf_mem_statesOf _ tr)
  have htx := step_appendTransaction expected events baseTime name (h := h) (e := e)
    (w := (lastOf (Config.idle T World.empty) tr).st)
  cases hstep with
  | op t h call o k e ht =>
    show ∃ other, other ≠ name ∧ ∃ row ∈ (World.step h _ e _).2.rowsOf name,
      ∃ row' ∈ (World.step h _ e _).2.rowsOf other, row.version = row'.version
    rw [hcommitted] at htx
    generalize (World.step h (.appendTransaction name expected events baseTime) e _).2 = s at htx ⊢
    cases htx with
    | committed hd hc =>
      have heq := hc.head_eq
      rw [World.headOf, hd] at hhead
      obtain rfl := Option.some.inj (heq.symm.trans hhead)
      refine hi.collides hc hd fun hnew => ?_
      obtain ⟨row, hrow, hlt⟩ := hstale
      exact absurd (hnew row hrow) (by omega)

end Runs

/-! ## Two handles over an hour -/

/-- The clock reads one o'clock, and the ids are new again. -/
def laterAtOne : StoreEnv := { atOne with ids := fun i => ⟨BitVec.ofNat 128 (i + 3)⟩ }

attribute [local instance] SerdeJson.limited

/-- Two handles on one partition, and an event in the first hour. -/
def shareOneFile : List (Move (eventStreams Bool) Bool) :=
  .invoke true true (.openPartitioned hourly) :: List.replicate 35 (.turn true {}) ++
    .invoke false false (.openPartitioned hourly) :: List.replicate 14 (.turn false {}) ++
    .invoke true true (.append hourly 1 .any [noteEvent]) :: List.replicate 15 (.turn true {})

/-- Both rotate before they append to the file of the next hour, on the same version. -/
def rotateTogether : List (Move (eventStreams Bool) Bool) :=
  shareOneFile ++
    .invoke true true (.maybeRotate hourly) :: List.replicate 31 (.turn true atOne) ++
    .invoke false false (.maybeRotate hourly) :: List.replicate 23 (.turn false atOne) ++
    .invoke false false (.append hourly 1 (.exact ⟨1⟩) [noteEvent]) ::
      List.replicate 15 (.turn false atOne) ++
    .invoke true true (.append hourly 1 (.exact ⟨1⟩) [noteEvent]) ::
      List.replicate 15 (.turn true laterAtOne)

def isOnNewest (c : Config (eventStreams Bool) Bool) : Label (eventStreams Bool) Bool → Bool
  | .op _ _ (.appendTransaction name _ _ _) _ =>
    (c.st.headOf name).all fun head => c.st.allRows.all fun row => row.version ≤ head
  | .op _ _ (.sql (.eventFile name) (.initializeEventFileAppendHead _ _)) _ =>
    (c.st.rowsOf name).isEmpty
  | _ => true

theorem onNewest_of_isOnNewest {c : Config (eventStreams Bool) Bool}
    {l : Label (eventStreams Bool) Bool} (h : isOnNewest c l = true) : OnNewest c l := by
  unfold isOnNewest at h
  split at h
  · intro head hhead _ row hrow
    rw [hhead, Option.all_some, List.all_eq_true] at h
    exact of_decide_eq_true (h row hrow)
  · exact List.isEmpty_iff.1 h
  · unfold OnNewest
    split
    · rename_i hother _
      exact absurd rfl (hother _ _ _ _ _ _ _)
    · rename_i hother
      exact absurd rfl (hother _ _ _ _ _ _)
    · trivial

theorem versions_kept_apart_rotateTogether :
    ∃ tr, play rotateTogether (Config.idle Bool (World.empty : World Bool)) = some tr ∧
      exactAnswers tr = [⟨1⟩] ∧
      ∀ c ∈ statesOf (Config.idle Bool (World.empty : World Bool)) tr,
        ∀ name other, name ≠ other → ∀ row ∈ c.st.rowsOf name, ∀ row' ∈ c.st.rowsOf other,
          row.version ≠ row'.version := by
  have hplay : ((play rotateTogether (Config.idle Bool (World.empty : World Bool))).map fun tr =>
      checks isOnNewest (Config.idle Bool World.empty) tr &&
      (exactAnswers tr == [⟨1⟩])) = some true := by decide +kernel
  obtain ⟨tr, htr, hchecks⟩ := Option.map_eq_some_iff.1 hplay
  obtain ⟨hnew, hanswers⟩ := Bool.and_eq_true_iff.1 hchecks
  have hrun := (play_checks htr hnew).mono fun c l => onNewest_of_isOnNewest
  exact ⟨tr, htr, beq_iff_eq.1 hanswers, fun c hc => ((versions_kept_apart hrun).1 c hc).2.1⟩

/-- The first handle is about to commit when the second one rotates and appends. -/
def rotateBefore : List (Move (eventStreams Bool) Bool) :=
  shareOneFile ++
    .invoke true true (.append hourly 1 (.exact ⟨1⟩) [noteEvent]) :: List.replicate 12 (.turn true {}) ++
    .invoke false false (.append hourly 1 (.exact ⟨1⟩) [noteEvent, noteEvent]) ::
      List.replicate 40 (.turn false atOne)

/-- The next operation of the first handle is a transaction that succeeds behind an older event. -/
def commitsBehind (c : Config (eventStreams Bool) Bool) : Bool :=
  match turn true laterAtOne c with
  | some (.op _ h (.appendTransaction name expected events baseTime) e, _) =>
    (World.step h (.appendTransaction name expected events baseTime) e c.st).1.isOk &&
      (c.st.headOf name).any fun head => c.st.allRows.any fun row => head < row.version
  | _ => false

theorem stale_append_collides_rotateBefore :
    ∃ tr l c' name other, play rotateBefore (Config.idle Bool (World.empty : World Bool)) = some tr ∧
      Step (lastOf (Config.idle Bool World.empty) tr) l c' ∧ other ≠ name ∧
      ∃ row ∈ c'.st.rowsOf name, ∃ row' ∈ c'.st.rowsOf other, row.version = row'.version := by
  have hplay : ((play rotateBefore (Config.idle Bool (World.empty : World Bool))).map fun tr =>
      checks isOnNewest (Config.idle Bool World.empty) tr &&
      commitsBehind (lastOf (Config.idle Bool World.empty) tr)) = some true := by decide +kernel
  obtain ⟨tr, htr, hchecks⟩ := Option.map_eq_some_iff.1 hplay
  obtain ⟨hnew, hbehind⟩ := Bool.and_eq_true_iff.1 hchecks
  have hrun := (play_checks htr hnew).mono fun c l => onNewest_of_isOnNewest
  unfold commitsBehind at hbehind
  split at hbehind
  · rename_i h name expected events baseTime e c' hturn
    obtain ⟨hok, hstale⟩ := Bool.and_eq_true_iff.1 hbehind
    have hstep := turn_sound hturn
    obtain ⟨head, hhead, hany⟩ := Option.any_eq_true _ _ |>.1 hstale
    obtain ⟨row, hrow, hlt⟩ := List.any_eq_true.1 hany
    cases hresult : (World.step h (.appendTransaction name expected events baseTime) e
        (lastOf (Config.idle Bool World.empty) tr).st).1 with
    | error err => rw [hresult] at hok; cases hok
    | ok result =>
      obtain ⟨other, hne, hsame⟩ := stale_append_collides hrun hstep hresult hhead
        ⟨row, hrow, of_decide_eq_true hlt⟩
      exact ⟨tr, _, c', name, other, htr, hstep, hne, hsame⟩
  · cases hbehind

/-- Then it commits, and rotates as well. -/
def appendBehind : List (Move (eventStreams Bool) Bool) :=
  rotateBefore ++ List.replicate 3 (.turn true laterAtOne) ++
    .invoke true true (.maybeRotate hourly) :: List.replicate 23 (.turn true laterAtOne)

/-- Both appends succeed on one version, which two files then store; and the rotation sets the head of
the second file below its last version. -/
theorem not_versions_kept_apart_appendBehind :
    ∃ tr, play appendBehind (Config.idle Bool (World.empty : World Bool)) = some tr ∧
      exactAnswers tr = [⟨1⟩, ⟨1⟩] ∧
      (lastOf (Config.idle Bool World.empty) tr).st.files.entries.map (fun f =>
        (f.2.headVersion, f.2.rows.map EventRow.version)) = [(some 2, [2, 3]), (some 2, [1, 2])] := by
  have hplay : ((play appendBehind (Config.idle Bool (World.empty : World Bool))).map fun tr =>
      (exactAnswers tr == [⟨1⟩, ⟨1⟩]) &&
      ((lastOf (Config.idle Bool World.empty) tr).st.files.entries.map (fun f =>
        (f.2.headVersion, f.2.rows.map EventRow.version)) ==
          [(some 2, [2, 3]), (some 2, [1, 2])])) = some true := by decide +kernel
  obtain ⟨tr, htr, hchecks⟩ := Option.map_eq_some_iff.1 hplay
  obtain ⟨hanswers, hfiles⟩ := Bool.and_eq_true_iff.1 hchecks
  exact ⟨tr, htr, beq_iff_eq.1 hanswers, beq_iff_eq.1 hfiles⟩

end Events
