import Mathlib.Data.BitVec
import Events.Types

/-!
# The notifications store

`src/notifications_store.rs`: the latest stream event of every request, kept in the table
`stream_events` until its time to live is over.

* **`StreamEvent`** (`src/broadcast.rs`), **`Row`** — the row that stores one, and the columns as
  the database returns them.
* **`record`, `get`, `cleanup`** — the three calls on the table.
* **`lastRecorded`** — what the store is for: a map from requests to their last event, with an
  expiry.
* **`Stored`** — the simulation: a request has the row of its last event, or none once it expired.
* **`get_lastRecorded`** — `get` reads the map, whatever cleanups ran before.
-/

namespace Events.Notifications

/-! ## Stream events -/

inductive EventKind where
  | progress
  | completed
  | failed
  deriving DecidableEq

/-- `EventKind::is_terminal`. -/
def EventKind.isTerminal : EventKind → Bool
  | .progress => false
  | .completed => true
  | .failed => true

inductive ItemStatus where
  | pending
  | inProgress
  | completed
  | failed
  deriving DecidableEq

structure ItemProgress where
  itemId : Text
  status : ItemStatus
  message : Text
  deriving DecidableEq

structure StreamEvent where
  requestId : Text
  streamId : Text
  timestamp : Int
  kind : EventKind
  currentStep : UInt32
  totalSteps : UInt32
  stepName : Text
  payload : Option Json
  errorMessage : Option Text
  retriable : Option Bool
  items : List ItemProgress

/-- `StreamEvent::is_terminal`. -/
def StreamEvent.isTerminal (event : StreamEvent) : Bool := event.kind.isTerminal

/-- What the store uses of `serde_json`. -/
structure Serde where
  toText : Json → Text
  fromText : Text → Option Json
  itemsToText : List ItemProgress → Option Text
  itemsFromText : Text → Option (List ItemProgress)

/-- Reading inverts writing on the payload and the items of an event. -/
structure Serde.Inverts (serde : Serde) (event : StreamEvent) : Prop where
  payload : ∀ p, event.payload = some p → serde.fromText (serde.toText p) = some p
  items : ∃ text, serde.itemsToText event.items = some text ∧
    serde.itemsFromText text = some event.items

/-! ## Rows -/

/-- `turso::Value`, of a column this table may hold. -/
inductive Value where
  | null
  | integer (i : Int)
  | text (t : Text)

def Value.asText : Value → Option Text
  | .text t => some t
  | _ => none

def Value.asInteger : Value → Option Int
  | .integer i => some i
  | _ => none

def Value.ofText : Option Text → Value
  | some t => .text t
  | none => .null

def Value.ofInteger : Option Int → Value
  | some i => .integer i
  | none => .null

/-- A row of `stream_events`. -/
structure Row where
  requestId : Text
  streamId : Value
  timestamp : Value
  kind : Value
  currentStep : Value
  totalSteps : Value
  stepName : Value
  payload : Value
  errorMessage : Value
  retriable : Value
  items : Value
  createdAt : Int
  expiresAt : Int

/-- `as i64` of a sum, or of an unsigned number. -/
def toI64 (i : Int) : Int := (BitVec.ofInt 64 i).toInt

/-- `as u32`. -/
def toU32 (i : Int) : UInt32 := ⟨BitVec.ofInt 32 i⟩

def EventKind.toText : EventKind → Text
  | .progress => ['p', 'r', 'o', 'g', 'r', 'e', 's', 's']
  | .completed => ['c', 'o', 'm', 'p', 'l', 'e', 't', 'e', 'd']
  | .failed => ['f', 'a', 'i', 'l', 'e', 'd']

/-- Every text but the other two is a failure. -/
def EventKind.fromText (t : Text) : EventKind :=
  if t = EventKind.progress.toText then .progress
  else if t = EventKind.completed.toText then .completed
  else .failed

/-- The row that `record` writes. -/
def row (serde : Serde) (ttl : Nat) (event : StreamEvent) (now : Int) : Row where
  requestId := event.requestId
  streamId := .text event.streamId
  timestamp := .integer event.timestamp
  kind := .text event.kind.toText
  currentStep := .integer event.currentStep.toNat
  totalSteps := .integer event.totalSteps.toNat
  stepName := .text event.stepName
  payload := .ofText (event.payload.map serde.toText)
  errorMessage := .ofText event.errorMessage
  retriable := .ofInteger (event.retriable.map fun r => if r then 1 else 0)
  items := .ofText
    (if event.items.isEmpty then none else some ((serde.itemsToText event.items).getD []))
  createdAt := now
  expiresAt := toI64 (now + ttl)

/-- `ok_or_else`. -/
def okOrElse {α : Type} (message : String) : Option α → Except EsError α
  | some a => .ok a
  | none => .error (.cursor message)

/-- The decoding of `get`. -/
def eventFromRow (serde : Serde) (requestId : Text) (row : Row) : Except EsError StreamEvent := do
  let streamId ← okOrElse "Expected text for stream_id" row.streamId.asText
  let timestamp ← okOrElse "Expected integer for timestamp" row.timestamp.asInteger
  let kind ← okOrElse "Expected text for kind" row.kind.asText
  return {
    requestId := requestId
    streamId := streamId
    timestamp := timestamp
    kind := EventKind.fromText kind
    currentStep := toU32 (row.currentStep.asInteger.getD 0)
    totalSteps := toU32 (row.totalSteps.asInteger.getD 0)
    stepName := row.stepName.asText.getD []
    payload := row.payload.asText.bind serde.fromText
    errorMessage := row.errorMessage.asText
    retriable := row.retriable.asInteger.map fun r => r ≠ 0
    items := (row.items.asText.bind serde.itemsFromText).getD [] }

/-! ## The calls -/

/-- `INSERT … ON CONFLICT(request_id) DO UPDATE` of every column. -/
def upsert (row : Row) (table : List Row) : List Row :=
  if table.any fun r => r.requestId = row.requestId then
    table.map fun r => if r.requestId = row.requestId then row else r
  else table ++ [row]

/-- `NotificationsStore::record`. -/
def record (serde : Serde) (ttl : Nat) (event : StreamEvent) (now : Int) (table : List Row) :
    List Row := upsert (row serde ttl event now) table

/-- `NotificationsStore::get`. -/
def get (serde : Serde) (requestId : Text) (now : Int) (table : List Row) :
    Except EsError (Option StreamEvent) :=
  match table.find? fun r => r.requestId = requestId ∧ now < r.expiresAt with
  | none => .ok none
  | some row => (eventFromRow serde requestId row).map some

/-- `NotificationsStore::cleanup`, with the number of deleted rows. -/
def cleanup (now : Int) (table : List Row) : Nat × List Row :=
  let kept := table.filter fun r => ¬ r.expiresAt < now
  (table.length - kept.length, kept)

/-- A call, with what the clock says in it. -/
inductive Call where
  | record (event : StreamEvent) (now : Int)
  | get (requestId : Text) (now : Int)
  | cleanup (now : Int)

def Call.now : Call → Int
  | .record _ now => now
  | .get _ now => now
  | .cleanup now => now

def Call.isCleanup : Call → Bool
  | .cleanup _ => true
  | _ => false

/-- What a call does to the table. -/
def step (serde : Serde) (ttl : Nat) (table : List Row) : Call → List Row
  | .record event now => record serde ttl event now table
  | .get _ _ => table
  | .cleanup now => (cleanup now table).2

/-- The table after a sequence of calls. -/
def runCalls (serde : Serde) (ttl : Nat) (calls : List Call) : List Row :=
  calls.foldl (step serde ttl) []

/-- A sequence of calls under a clock that does not go back, on events that survive their own text,
with expiry times that fit the column. -/
structure Calls (serde : Serde) (ttl : Nat) (calls : List Call) : Prop where
  clock : (calls.map Call.now).Pairwise (· ≤ ·)
  fits : ∀ event now, Call.record event now ∈ calls → -2 ^ 63 ≤ now ∧ now + ttl < 2 ^ 63
  inverts : ∀ event now, Call.record event now ∈ calls → serde.Inverts event

/-! ## The map with expiry -/

/-- What a call does to the last event of a request, with the time of its recording. -/
def remember (requestId : Text) (last : Option (StreamEvent × Int)) :
    Call → Option (StreamEvent × Int)
  | .record event now => if event.requestId = requestId then some (event, now) else last
  | .get _ _ => last
  | .cleanup _ => last

/-- The event last recorded for a request. -/
def lastRecorded (requestId : Text) (calls : List Call) : Option (StreamEvent × Int) :=
  calls.foldl (remember requestId) none

/-- What the map holds for a request at time `t`. -/
def visible (ttl : Nat) (requestId : Text) (t : Int) (calls : List Call) : Option StreamEvent :=
  match lastRecorded requestId calls with
  | some (event, recordedAt) => if t < recordedAt + ttl then some event else none
  | none => none

/-! ## Encoding and decoding -/

/-- The kinds of events round-trip through their texts. -/
theorem fromText_toText (kind : EventKind) : EventKind.fromText kind.toText = kind := by
  cases kind <;> decide

/-- A counter is read back from the integer it was stored as: `as u32` does not wrap it around. -/
theorem toU32_toNat (n : UInt32) : toU32 n.toNat = n := by
  unfold toU32
  rw [BitVec.ofInt_natCast]
  exact UInt32.ofNat_toNat

theorem asText_text (t : Text) : (Value.text t).asText = some t := rfl

theorem asInteger_integer (i : Int) : (Value.integer i).asInteger = some i := rfl

/-- A nullable text round-trips, `NULL` being no text. -/
theorem asText_ofText (t : Option Text) : (Value.ofText t).asText = t := by cases t <;> rfl

/-- A nullable integer round-trips in the same way. -/
theorem asInteger_ofInteger (i : Option Int) : (Value.ofInteger i).asInteger = i := by
  cases i <;> rfl

/-- **The decoding of `get` inverts the encoding of `record`.** -/
theorem eventFromRow_row {serde : Serde} {event : StreamEvent} (h : serde.Inverts event) (ttl : Nat)
    (now : Int) : eventFromRow serde event.requestId (row serde ttl event now) = .ok event := by
  have hpayload : (event.payload.map serde.toText).bind serde.fromText = event.payload := by
    cases hp : event.payload with
    | none => rfl
    | some p => exact h.payload p hp
  have hretriable : (event.retriable.map fun r => if r then (1 : Int) else 0).map
      (fun r => decide (r ≠ 0)) = event.retriable := by
    cases event.retriable with
    | none => rfl
    | some r => cases r <;> rfl
  have hitems : ((if event.items.isEmpty then none
      else some ((serde.itemsToText event.items).getD [])).bind serde.itemsFromText).getD [] =
        event.items := by
    obtain ⟨text, hto, hfrom⟩ := h.items
    cases hempty : event.items.isEmpty with
    | true => simpa using (List.isEmpty_iff.mp hempty).symm
    | false => simp [hto, hfrom]
  unfold eventFromRow row
  simp only [asText_ofText, asInteger_ofInteger, hpayload, hretriable, hitems, asText_text,
    asInteger_integer, okOrElse, Option.getD_some, toU32_toNat]
  show Except.ok { event with kind := EventKind.fromText event.kind.toText } = .ok event
  rw [fromText_toText]

/-! ## The table by requests -/

/-- The row of a request. -/
def rowOf (requestId : Text) (table : List Row) : Option Row :=
  table.find? fun r => r.requestId = requestId

/-- A filtered query of a request is a filter on its row, since the requests are distinct. -/
theorem rowOf_filter {table : List Row} (hids : (table.map Row.requestId).Nodup) (q : Row → Bool)
    (requestId : Text) :
    table.find? (fun r => q r && decide (r.requestId = requestId)) =
      (rowOf requestId table).filter q := by
  induction table with
  | nil => rfl
  | cons r table ih =>
    unfold rowOf at ih ⊢
    rw [List.map_cons, List.nodup_cons] at hids
    by_cases hr : r.requestId = requestId
    · have hrest : table.find? (fun r => q r && decide (r.requestId = requestId)) = none := by
        rw [List.find?_eq_none]
        intro x hx hboth
        simp only [Bool.and_eq_true, decide_eq_true_eq] at hboth
        exact hids.1 (List.mem_map.mpr ⟨x, hx, hboth.2.trans hr.symm⟩)
      cases hq : q r <;> simp [hr, hq, hrest, Option.filter]
    · simp only [List.find?_cons, hr, decide_false, Bool.and_false]
      exact ih hids.2

/-- A cleanup takes the row of a request if it has expired, and leaves the others. -/
theorem rowOf_cleanup {table : List Row} (hids : (table.map Row.requestId).Nodup) (now : Int)
    (requestId : Text) : rowOf requestId (cleanup now table).2 =
      (rowOf requestId table).filter fun r => ¬ r.expiresAt < now := by
  rw [← rowOf_filter hids]
  refine List.find?_filter.trans (congrArg (fun q => List.find? q table) (funext fun r => ?_))
  rw [Bool.decide_and, Bool.decide_eq_true, Bool.decide_eq_true]

/-- The query of `get`. -/
theorem find_unexpired {table : List Row} (hids : (table.map Row.requestId).Nodup) (t : Int)
    (requestId : Text) : table.find? (fun r => decide (r.requestId = requestId ∧ t < r.expiresAt)) =
      (rowOf requestId table).filter fun r => t < r.expiresAt := by
  rw [← rowOf_filter hids]
  refine congrArg (fun q => List.find? q table) (funext fun r => ?_)
  rw [Bool.decide_and, Bool.and_comm]

/-- **The primary key**: an upsert leaves the requests distinct. -/
theorem upsert_ids {table : List Row} (hids : (table.map Row.requestId).Nodup) (row : Row) :
    ((upsert row table).map Row.requestId).Nodup := by
  unfold upsert
  split
  · have hsame : (table.map fun r => if r.requestId = row.requestId then row else r).map
        Row.requestId = table.map Row.requestId := by
      rw [List.map_map]
      refine List.map_congr_left fun r _ => ?_
      show (if r.requestId = row.requestId then row else r).requestId = r.requestId
      split
      · rename_i heq
        exact heq.symm
      · rfl
    rw [hsame]
    exact hids
  · rename_i hnone
    rw [List.map_append, List.nodup_append]
    refine ⟨hids, by simp, ?_⟩
    intro x hx y hy heq
    obtain ⟨r, hr, rfl⟩ := List.mem_map.mp hx
    simp only [List.map_cons, List.map_nil, List.mem_singleton] at hy
    exact hnone (List.any_eq_true.mpr ⟨r, hr, by simpa using heq.trans hy⟩)

/-- The row of a request has its id. -/
theorem rowOf_some {requestId : Text} {table : List Row} {r : Row}
    (h : rowOf requestId table = some r) : r.requestId = requestId := by
  simpa using List.find?_some h

/-- An upsert sets the row of its request and no other one. -/
theorem rowOf_upsert (row : Row) (table : List Row) (requestId : Text) :
    rowOf requestId (upsert row table) =
      if row.requestId = requestId then some row else rowOf requestId table := by
  unfold upsert
  split
  · -- the id is in the table: its row is replaced in place
    rename_i hany
    have hid : ∀ r : Row, (if r.requestId = row.requestId then row else r).requestId =
        r.requestId := by
      intro r
      split
      · rename_i heq
        exact heq.symm
      · rfl
    have hfind : rowOf requestId (table.map fun r => if r.requestId = row.requestId then row else r) =
        (rowOf requestId table).map fun r => if r.requestId = row.requestId then row else r := by
      unfold rowOf
      rw [List.find?_map]
      simp only [Function.comp_def, hid]
    rw [hfind]
    split
    · rename_i heq
      obtain ⟨r, hr, hsame⟩ := List.any_eq_true.mp hany
      have hsome : (rowOf requestId table).isSome := by
        unfold rowOf
        rw [List.find?_isSome]
        exact ⟨r, hr, by simpa [heq] using hsame⟩
      obtain ⟨r', hr'⟩ := Option.isSome_iff_exists.mp hsome
      rw [hr', Option.map_some, if_pos ((rowOf_some hr').trans heq.symm)]
    · rename_i hne
      cases hr : rowOf requestId table with
      | none => rfl
      | some r => rw [Option.map_some, if_neg fun h => hne (h.symm.trans (rowOf_some hr))]
  · -- the id is new: the row is appended
    rename_i hnone
    unfold rowOf
    rw [List.find?_append]
    split
    · rename_i heq
      have hfresh : table.find? (fun r => decide (r.requestId = requestId)) = none := by
        rw [List.find?_eq_none]
        intro r hr hsame
        exact hnone (List.any_eq_true.mpr ⟨r, hr, by simpa [heq] using hsame⟩)
      simp [hfresh, heq]
    · rename_i hne
      simp [hne]

/-! ## The simulation -/

/-- No call makes a second row of a request. -/
theorem ids_step {serde : Serde} {ttl : Nat} {table : List Row} (hids : (table.map Row.requestId).Nodup)
    (call : Call) : ((step serde ttl table call).map Row.requestId).Nodup := by
  cases call with
  | get r t => exact hids
  | record event now => exact upsert_ids hids _
  | cleanup now => exact hids.sublist (List.filter_sublist.map _)

/-- A request has the row of its last event, or it has none and a call came after the expiry. -/
structure Stored (serde : Serde) (ttl : Nat) (calls : List Call) (table : List Row) : Prop where
  ids : (table.map Row.requestId).Nodup
  rows : ∀ requestId,
    rowOf requestId table =
        (lastRecorded requestId calls).map (fun last => row serde ttl last.1 last.2) ∨
      rowOf requestId table = none ∧ ∃ event recordedAt, ∃ call ∈ calls,
        lastRecorded requestId calls = some (event, recordedAt) ∧ recordedAt + ttl < call.now

/-- Recording an event makes it the last one of its request. -/
theorem remember_record (requestId : Text) (last : Option (StreamEvent × Int)) (event : StreamEvent)
    (now : Int) : remember requestId last (.record event now) =
      if event.requestId = requestId then some (event, now) else last := rfl

/-- One more call. -/
theorem lastRecorded_snoc (requestId : Text) (calls : List Call) (call : Call) :
    lastRecorded requestId (calls ++ [call]) =
      remember requestId (lastRecorded requestId calls) call := by
  unfold lastRecorded
  rw [List.foldl_append]
  rfl

/-- The last event of a request was recorded for it. -/
theorem lastRecorded_mem {requestId : Text} {calls : List Call} {event : StreamEvent} {now : Int}
    (h : lastRecorded requestId calls = some (event, now)) :
    Call.record event now ∈ calls ∧ event.requestId = requestId := by
  induction calls using List.reverseRecOn with
  | nil => exact absurd h nofun
  | append_singleton calls call ih =>
    have hlater : lastRecorded requestId calls = some (event, now) →
        Call.record event now ∈ calls ++ [call] ∧ event.requestId = requestId :=
      fun hold => ⟨List.mem_append_left _ (ih hold).1, (ih hold).2⟩
    rw [lastRecorded_snoc] at h
    cases call with
    | get _ _ => exact hlater h
    | cleanup _ => exact hlater h
    | record e t =>
      rw [remember_record] at h
      split at h
      · rename_i hid
        obtain ⟨rfl, rfl⟩ : e = event ∧ t = now := by simpa using h
        exact ⟨List.mem_append_right _ List.mem_cons_self, hid⟩
      · exact hlater h

/-- The calls up to the last one are calls of the same kind. -/
theorem Calls.of_snoc {serde : Serde} {ttl : Nat} {calls : List Call} {call : Call}
    (h : Calls serde ttl (calls ++ [call])) : Calls serde ttl calls := by
  refine ⟨?_, fun e t hmem => h.fits e t (List.mem_append_left _ hmem),
    fun e t hmem => h.inverts e t (List.mem_append_left _ hmem)⟩
  have hclock := h.clock
  rw [List.map_append, List.pairwise_append] at hclock
  exact hclock.1

/-- The clock has not gone back. -/
theorem Calls.le_last {serde : Serde} {ttl : Nat} {calls : List Call} {call : Call}
    (h : Calls serde ttl (calls ++ [call])) : ∀ c ∈ calls, c.now ≤ call.now := by
  have hclock := h.clock
  rw [List.map_append, List.pairwise_append] at hclock
  exact fun c hc => hclock.2.2 c.now (List.mem_map_of_mem hc) call.now (by simp)

/-- An event's row expires at the end of its time to live. -/
theorem Calls.expiresAt {serde : Serde} {ttl : Nat} {calls : List Call}
    (h : Calls serde ttl calls) {event : StreamEvent} {now : Int}
    (hmem : Call.record event now ∈ calls) : (row serde ttl event now).expiresAt = now + ttl := by
  obtain ⟨hlow, hhigh⟩ := h.fits event now hmem
  show toI64 (now + ttl) = now + ttl
  unfold toI64
  rw [BitVec.toInt_ofInt]
  exact Int.bmod_eq_of_le (by omega) (by omega)

/-- **One call keeps the simulation.** -/
theorem Stored.step {serde : Serde} {ttl : Nat} {calls : List Call} {table : List Row} {call : Call}
    (hcalls : Calls serde ttl (calls ++ [call])) (h : Stored serde ttl calls table) :
    Stored serde ttl (calls ++ [call]) (step serde ttl table call) := by
  -- what had run out before the call has run out after it
  have hkeep : ∀ requestId, (∃ event recordedAt, ∃ c ∈ calls,
      lastRecorded requestId calls = some (event, recordedAt) ∧ recordedAt + ttl < c.now) →
      ∃ event recordedAt, ∃ c ∈ calls ++ [call],
        lastRecorded requestId calls = some (event, recordedAt) ∧ recordedAt + ttl < c.now := by
    rintro requestId ⟨event, recordedAt, c, hc, hlast, hover⟩
    exact ⟨event, recordedAt, c, List.mem_append_left _ hc, hlast, hover⟩
  cases call with
  | get r t =>
    refine ⟨h.ids, fun requestId => ?_⟩
    rw [lastRecorded_snoc]
    exact (h.rows requestId).imp id (And.imp_right (hkeep requestId))
  | record event now =>
    refine ⟨ids_step h.ids _, fun requestId => ?_⟩
    rw [lastRecorded_snoc, remember_record, Notifications.step, record, rowOf_upsert]
    by_cases hid : event.requestId = requestId
    · rw [if_pos hid]
      exact .inl (if_pos hid)
    · rw [if_neg hid, if_neg (show ¬ (row serde ttl event now).requestId = requestId from hid)]
      exact (h.rows requestId).imp id (And.imp_right (hkeep requestId))
  | cleanup now =>
    refine ⟨ids_step h.ids _, fun requestId => ?_⟩
    rw [lastRecorded_snoc, Notifications.step, rowOf_cleanup h.ids]
    show _ = (lastRecorded requestId calls).map _ ∨ _ ∧ ∃ event recordedAt, ∃ c ∈ _,
      lastRecorded requestId calls = some (event, recordedAt) ∧ _
    rcases h.rows requestId with hrow | ⟨hnone, hover⟩
    · rw [hrow]
      cases hlast : lastRecorded requestId calls with
      | none => exact .inl rfl
      | some last =>
        obtain ⟨event, recordedAt⟩ := last
        have hexpires := hcalls.of_snoc.expiresAt (lastRecorded_mem hlast).1
        -- the cleanup takes the rows that have expired by its clock
        by_cases hexpired : recordedAt + ttl < now
        · refine .inr ⟨?_, event, recordedAt, .cleanup now, by simp, rfl, hexpired⟩
          simp [Option.filter, hexpires, hexpired]
        · left
          simp [Option.filter, hexpires, hexpired]
    · rw [hnone]
      exact .inr ⟨rfl, hkeep requestId hover⟩

/-- Every sequence of calls leads to a table that simulates the map. -/
theorem stored_runCalls {serde : Serde} {ttl : Nat} {calls : List Call}
    (h : Calls serde ttl calls) : Stored serde ttl calls (runCalls serde ttl calls) := by
  induction calls using List.reverseRecOn with
  | nil => exact ⟨.nil, fun _ => .inl rfl⟩
  | append_singleton calls call ih =>
    have hnext := (ih h.of_snoc).step h
    unfold runCalls at hnext ⊢
    rw [List.foldl_append]
    exact hnext

/-- A cleanup records nothing. -/
theorem lastRecorded_filter (requestId : Text) (calls : List Call) :
    lastRecorded requestId (calls.filter fun c => ¬ c.isCleanup) = lastRecorded requestId calls := by
  induction calls using List.reverseRecOn with
  | nil => rfl
  | append_singleton calls call ih =>
    rw [List.filter_append, lastRecorded_snoc, ← ih]
    cases call with
    | record event now => exact lastRecorded_snoc _ _ _
    | get r t => exact lastRecorded_snoc _ _ _
    | cleanup now => exact congrArg (lastRecorded requestId) (List.append_nil _)

/-- `get` at the end of a sequence of calls returns what the map holds. -/
theorem get_visible {serde : Serde} {ttl : Nat} {calls : List Call} {requestId : Text} {t : Int}
    (h : Calls serde ttl (calls ++ [.get requestId t])) :
    get serde requestId t (runCalls serde ttl calls) = .ok (visible ttl requestId t calls) := by
  have hstored := stored_runCalls h.of_snoc
  unfold get visible
  rw [find_unexpired hstored.ids]
  rcases hstored.rows requestId with hrow | ⟨hnone, event, recordedAt, c, hc, hlast, hover⟩
  · rw [hrow]
    cases hlast : lastRecorded requestId calls with
    | none => rfl
    | some last =>
      obtain ⟨event, recordedAt⟩ := last
      obtain ⟨hmem, hid⟩ := lastRecorded_mem hlast
      have hexpires := h.of_snoc.expiresAt hmem
      have hdecode := eventFromRow_row (h.of_snoc.inverts event recordedAt hmem) ttl recordedAt
      rw [hid] at hdecode
      by_cases hfresh : t < recordedAt + ttl
      · simp [Option.filter, hexpires, hfresh, hdecode, Except.map]
      · simp [Option.filter, hexpires, hfresh]
  · have hlate : c.now ≤ t := h.le_last c hc
    rw [hnone, hlast]
    show Except.ok none = Except.ok (if t < recordedAt + ttl then some event else none)
    rw [if_neg (by omega)]

/-- **The store is a map with expiry.** After any calls under a clock that does not go back, `get`
returns the event last recorded for the request if its time to live is not over, and `none`
otherwise; calls that differ in their cleanups only give the same answer. -/
theorem get_lastRecorded {serde : Serde} {ttl : Nat} {calls : List Call} {requestId : Text}
    {t : Int} (h : Calls serde ttl (calls ++ [.get requestId t])) :
    get serde requestId t (runCalls serde ttl calls) = .ok (visible ttl requestId t calls) ∧
      ∀ calls', Calls serde ttl (calls' ++ [.get requestId t]) →
        calls'.filter (fun c => ¬ c.isCleanup) = calls.filter (fun c => ¬ c.isCleanup) →
        get serde requestId t (runCalls serde ttl calls') =
          get serde requestId t (runCalls serde ttl calls) := by
  refine ⟨get_visible h, fun calls' h' hsame => ?_⟩
  have hlast : lastRecorded requestId calls' = lastRecorded requestId calls := by
    rw [← lastRecorded_filter requestId calls', hsame, lastRecorded_filter]
  rw [get_visible h, get_visible h']
  unfold visible
  rw [hlast]

/-- `serde_json` on the events of `finishedImport`. -/
def nullSerde : Serde where
  toText _ := ['n', 'u', 'l', 'l']
  fromText t := if t = ['n', 'u', 'l', 'l'] then some .null else none
  itemsToText _ := some ['[', ']']
  itemsFromText t := if t = ['[', ']'] then some [] else none

/-- A completed request, whose payload is the JSON `null`. -/
def finishedImport : StreamEvent :=
  ⟨['r'], ['s'], 90, .completed, 3, 3, ['d'], some .null, none, none, []⟩

theorem get_lastRecorded_finishedImport :
    get nullSerde ['r'] 399 (runCalls nullSerde 300 [.record finishedImport 100, .cleanup 399]) =
      .ok (some finishedImport) :=
  (@get_lastRecorded nullSerde 300 [.record finishedImport 100, .cleanup 399] ['r'] 399
    { clock := by decide
      fits := by
        intro event now hmem
        obtain ⟨-, rfl⟩ : event = finishedImport ∧ now = 100 := by simpa using hmem
        decide
      inverts := by
        intro event now hmem
        obtain ⟨rfl, -⟩ : event = finishedImport ∧ now = 100 := by simpa using hmem
        exact ⟨by rintro p ⟨⟩; rfl, _, rfl, rfl⟩ }).1

end Events.Notifications
