import Events.NotificationTtl

/-!
# Many stores on one database

Any number of `NotificationsStore`s on one database, each opened with a time to live of its own, as when a
service is started again with another configuration. A row keeps the expiry of the store that has written
it. The clocks of the calls are arbitrary, and any call may fail.

* **`StoreCall`**, **`table`** — the calls of the stores, and the table behind them.
* **`Latest`** — a recording that no later call has replaced or deleted.
* **`rowOf_table_iff`** — the rows are those recordings; **`get_latest_iff`** — so `get` returns them.
-/

namespace Events.Notifications

/-- A call of one of the stores, with its time to live in seconds and the reading of its clock. -/
inductive StoreCall where
  /-- `NotificationsStore::with_ttl`: "CREATE TABLE IF NOT EXISTS". -/
  | withTtl (ttl : Nat)
  | record (ttl : Nat) (event : StreamEvent) (now : Int)
  | get (requestId : Text) (now : Int)
  | cleanup (now : Int)
  /-- A call that has returned an error. -/
  | failed

/-- What a call does to the table. -/
def storeStep (serde : Serde) (table : List Row) : StoreCall → List Row
  | .record ttl event now => record serde ttl event now table
  | .cleanup now => (cleanup now table).2
  | .withTtl _ | .get _ _ | .failed => table

/-- The table after a sequence of calls. -/
def table (serde : Serde) (calls : List StoreCall) : List Row := calls.foldl (storeStep serde) []

/-- The call leaves the row of a request with the given expiry. -/
def StoreCall.Keeps (requestId : Text) (expiresAt : Int) : StoreCall → Prop
  | .record _ event _ => event.requestId ≠ requestId
  | .cleanup now => ¬ expiresAt < now
  | .withTtl _ | .get _ _ | .failed => True

/-- The recording of an event that no later call has replaced or deleted. -/
def Latest (serde : Serde) (calls : List StoreCall) (ttl : Nat) (event : StreamEvent) (now : Int) : Prop :=
  ∃ before after, calls = before ++ .record ttl event now :: after ∧
    ∀ call ∈ after, call.Keeps event.requestId (row serde ttl event now).expiresAt

section Stores

variable {serde : Serde} {calls : List StoreCall} {requestId : Text} {rows : List Row} {r : Row}

theorem ids_storeStep (hids : (rows.map Row.requestId).Nodup) (call : StoreCall) :
    ((storeStep serde rows call).map Row.requestId).Nodup := by
  cases call with
  | record ttl event now => exact upsert_ids hids _
  | cleanup now => exact hids.sublist (List.filter_sublist.map _)
  | withTtl _ | get _ _ | failed => exact hids

theorem ids_table (serde : Serde) (calls : List StoreCall) :
    ((table serde calls).map Row.requestId).Nodup := by
  induction calls using List.reverseRecOn with
  | nil => exact .nil
  | append_singleton calls call ih =>
    unfold table at ih ⊢
    rw [List.foldl_append]
    exact ids_storeStep ih call

/-- **One call**: a request has the row it writes, or the one before, if the call keeps it. -/
theorem rowOf_storeStep_iff (hids : (rows.map Row.requestId).Nodup) (call : StoreCall) :
    rowOf requestId (storeStep serde rows call) = some r ↔
      (∃ ttl event now, call = .record ttl event now ∧ event.requestId = requestId ∧
        r = row serde ttl event now) ∨
      rowOf requestId rows = some r ∧ call.Keeps requestId r.expiresAt := by
  cases call with
  | record ttl event now =>
    show rowOf requestId (upsert (row serde ttl event now) rows) = some r ↔ _
    rw [rowOf_upsert]
    by_cases hid : event.requestId = requestId
    · rw [if_pos (show (row serde ttl event now).requestId = requestId from hid)]
      constructor
      · intro h
        exact .inl ⟨ttl, event, now, rfl, hid, (Option.some.inj h).symm⟩
      · rintro (⟨_, _, _, hcall, -, rfl⟩ | ⟨-, hkeeps⟩)
        · cases hcall
          rfl
        · exact absurd hid hkeeps
    · rw [if_neg (show ¬ (row serde ttl event now).requestId = requestId from hid)]
      constructor
      · exact fun h => .inr ⟨h, hid⟩
      · rintro (⟨_, _, _, hcall, hsame, -⟩ | ⟨h, -⟩)
        · cases hcall
          exact absurd hsame hid
        · exact h
  | cleanup now =>
    show rowOf requestId (cleanup now rows).2 = some r ↔ _
    rw [rowOf_cleanup hids, Option.filter_eq_some_iff]
    simp [StoreCall.Keeps]
  | withTtl _ | get _ _ | failed => simp [storeStep, StoreCall.Keeps]

/-- The rows of the table are the recordings that are still the latest. -/
theorem rowOf_table_iff : rowOf requestId (table serde calls) = some r ↔
    ∃ ttl event now, event.requestId = requestId ∧ r = row serde ttl event now ∧
      Latest serde calls ttl event now := by
  induction calls using List.reverseRecOn generalizing r with
  | nil =>
    refine ⟨fun h => (by cases h), ?_⟩
    rintro ⟨_, _, _, -, -, before, after, hcalls, -⟩
    exact absurd hcalls.symm (by simp)
  | append_singleton calls call ih =>
    have htable : table serde (calls ++ [call]) = storeStep serde (table serde calls) call := by
      unfold table
      rw [List.foldl_append]
      rfl
    rw [htable, rowOf_storeStep_iff (ids_table serde calls), ih]
    constructor
    · rintro (⟨ttl, event, now, rfl, hid, rfl⟩ | ⟨⟨ttl, event, now, hid, rfl, hlatest⟩, hkeeps⟩)
      · exact ⟨ttl, event, now, hid, rfl, calls, [], rfl, fun _ h => absurd h List.not_mem_nil⟩
      · obtain ⟨before, after, rfl, hafter⟩ := hlatest
        refine ⟨ttl, event, now, hid, rfl, before, after ++ [call], by simp, fun c hc => ?_⟩
        rcases List.mem_append.1 hc with hc | hc
        · exact hafter c hc
        · rw [List.mem_singleton.1 hc, hid]
          exact hkeeps
    · rintro ⟨ttl, event, now, hid, rfl, before, after, hcalls, hafter⟩
      rcases List.eq_nil_or_concat' after with rfl | ⟨after, last, rfl⟩
      · obtain ⟨-, hcall⟩ := List.append_inj' hcalls rfl
        exact .inl ⟨ttl, event, now, List.singleton_inj.1 hcall, hid, rfl⟩
      · rw [← List.cons_append, ← List.append_assoc] at hcalls
        obtain ⟨rfl, hcall⟩ := List.append_inj' hcalls rfl
        obtain rfl := List.singleton_inj.1 hcall
        refine .inr ⟨⟨ttl, event, now, hid, rfl, before, after, rfl, fun c hc => ?_⟩, ?_⟩
        · exact hafter c (List.mem_append_left _ hc)
        · rw [← hid]
          exact hafter call (List.mem_append_right _ List.mem_cons_self)

theorem Latest.mem {ttl : Nat} {event : StreamEvent} {now : Int} (h : Latest serde calls ttl event now) :
    StoreCall.record ttl event now ∈ calls := by
  obtain ⟨before, after, rfl, -⟩ := h
  exact List.mem_append_right _ List.mem_cons_self

end Stores

/-- **`get` returns the latest recording of the request** until its own expiry, and none otherwise,
whatever times to live the stores have and whatever their clocks read. -/
theorem get_latest_iff {serde : Serde} {calls : List StoreCall} {requestId : Text} {t : Int}
    (hinverts : ∀ ttl event now, StoreCall.record ttl event now ∈ calls → serde.Inverts event) :
    ∃ answer, get serde requestId t (table serde calls) = .ok answer ∧
      ∀ event, answer = some event ↔ event.requestId = requestId ∧
        ∃ ttl now, Latest serde calls ttl event now ∧ t < toI64 (now + ttl) := by
  unfold get
  rw [find_unexpired (ids_table serde calls)]
  -- a latest recording is the row of its request
  have hrow : ∀ {event ttl now}, event.requestId = requestId → Latest serde calls ttl event now →
      rowOf requestId (table serde calls) = some (row serde ttl event now) :=
    fun hid hlatest => rowOf_table_iff.2 ⟨_, _, _, hid, rfl, hlatest⟩
  cases h : rowOf requestId (table serde calls) with
  | none =>
    refine ⟨none, rfl, fun event => ⟨fun h => (by cases h), ?_⟩⟩
    rintro ⟨hid, ttl, now, hlatest, -⟩
    rw [hrow hid hlatest] at h
    cases h
  | some r =>
    obtain ⟨ttl, event, now, hid, rfl, hlatest⟩ := rowOf_table_iff.1 h
    by_cases hfresh : t < (row serde ttl event now).expiresAt
    · have hdecode := eventFromRow_row (hinverts ttl event now hlatest.mem) ttl now
      rw [hid] at hdecode
      refine ⟨some event, by simp [Option.filter, hfresh, hdecode, Except.map], fun event' => ?_⟩
      constructor
      · rintro ⟨⟩
        exact ⟨hid, ttl, now, hlatest, hfresh⟩
      · rintro ⟨hid', ttl', now', hlatest', -⟩
        have hsame : row serde ttl event now = row serde ttl' event' now' :=
          Option.some.inj (h.symm.trans (hrow hid' hlatest'))
        have hdecode' := eventFromRow_row (hinverts ttl' event' now' hlatest'.mem) ttl' now'
        rw [hid', ← hsame, hdecode] at hdecode'
        exact congrArg some (Except.ok.inj hdecode')
    · refine ⟨none, by simp [Option.filter, hfresh], fun event' => ⟨fun h => (by cases h), ?_⟩⟩
      rintro ⟨hid', ttl', now', hlatest', hfresh'⟩
      have hsame : row serde ttl event now = row serde ttl' event' now' :=
        Option.some.inj (h.symm.trans (hrow hid' hlatest'))
      exact absurd (hsame ▸ hfresh') hfresh

/-- The store is opened again with a shorter life; the event that the first one has recorded is kept for as
long as the first one said. -/
def openAgain : List StoreCall :=
  [.withTtl 300, .record 300 finishedImport 100, .failed, .withTtl 5, .cleanup 200]

theorem get_latest_iff_openAgain : get nullSerde ['r'] 399 (table nullSerde openAgain) =
    .ok (some finishedImport) := by
  have hinverts : ∀ ttl event now, StoreCall.record ttl event now ∈ openAgain →
      nullSerde.Inverts event := by
    intro ttl event now hmem
    obtain ⟨-, rfl, -⟩ : ttl = 300 ∧ event = finishedImport ∧ now = 100 := by
      simpa [openAgain] using hmem
    exact ⟨by rintro p ⟨⟩; rfl, _, rfl, rfl⟩
  obtain ⟨answer, hget, hanswer⟩ := @get_latest_iff nullSerde openAgain ['r'] 399 hinverts
  have hlatest : Latest nullSerde openAgain 300 finishedImport 100 := by
    refine ⟨[.withTtl 300], [.failed, .withTtl 5, .cleanup 200], rfl, fun call hcall => ?_⟩
    simp only [List.mem_cons, List.not_mem_nil, or_false] at hcall
    rcases hcall with rfl | rfl | rfl
    · exact trivial
    · exact trivial
    · show ¬ (400 : Int) < 200
      decide
  rw [hget, (hanswer finishedImport).2 ⟨rfl, 300, 100, hlatest, by decide⟩]

end Events.Notifications
