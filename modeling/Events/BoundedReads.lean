import Events.Tiling
import Events.ReadBack

/-!
# Bounded reads

`load_after_version` and `load_workflow_after_version` ask one file after the other for what is left
of the limit. Where the ranges of the catalog tile the stream and the newest one is open, that gives
the first events of the whole stream that the read selects, in version order, however many files they
are spread over: the ranges that the catalog leaves out hold none of them, and the files that are
asked come in the order of their versions.

* **`block`** — what a read selects from a file, in version order.
* **`Queries`** — what the read asks of a file.
* **`wp_loadFromRanges`** — the loop takes what is left of the limit from each block.
* **`flatMap_block`** — the blocks together are what the read selects from the stream.
* **`wp_loadWith`** — the two reads.
-/

namespace Events

open Proc Program

/-- Only the newest range may grow: it is not bounded yet. -/
def NewestOpen (w : World Unit) : Prop :=
  ∃ init r, w.ranges = init ++ [r] ∧ r.lastVersion = none

theorem OpenNewest.newestOpen {w : World Unit} (h : OpenNewest w) : NewestOpen w := by
  obtain ⟨init, r, hinit, -, -, hlast⟩ := h
  exact ⟨init, r, hinit, hlast⟩

/-! ## What a read selects -/

section Select

variable (P : EventRow → Prop) [DecidablePred P]

/-- What a read selects from an event file, in version order. -/
def block {H : Type} (w : World H) (name : Text) : List EventRow :=
  ((w.rowsOf name).filter P).insertionSort versionLe

/-- The first `limit` events of the stream that a read selects. -/
def page {H : Type} (w : World H) (limit : Nat) : List EventEnvelope :=
  (w.log.filter fun e => P e.toRow).take limit

end Select

/-- The row of an event after `cursor`. -/
abbrev AfterCursor (cursor : Int) (row : EventRow) : Prop := cursor < row.version

/-- The row of an event after `cursor` that belongs to the workflow run `id`. -/
abbrev OfWorkflowAfter (id : Uuid) (cursor : Int) (row : EventRow) : Prop :=
  row.workflowStartedByEventId = some id ∧ cursor < row.version

instance : Std.Total versionLe := ⟨fun a b => Int.le_total a.version b.version⟩

instance : IsTrans EventRow versionLe := ⟨fun _ _ _ => Int.le_trans⟩

instance : Std.Total eventLe := ⟨fun a b => Int.le_total a.version.get b.version.get⟩

instance : IsTrans EventEnvelope eventLe := ⟨fun _ _ _ => Int.le_trans⟩

instance : Std.Total rangeLe where
  total a b := by
    rcases Int.lt_trichotomy a.firstVersion b.firstVersion with h | h | h
    · exact .inl (.inl h)
    · exact (le_total a.name b.name).imp (fun hn => .inr ⟨h, hn⟩) fun hn => .inr ⟨h.symm, hn⟩
    · exact .inr (.inl h)

instance : IsTrans EventFileRange rangeLe where
  trans a b c hab hbc := by
    rcases hab with hab | ⟨hab, hn⟩ <;> rcases hbc with hbc | ⟨hbc, hn'⟩
    · exact .inl (hab.trans hbc)
    · exact .inl (hbc ▸ hab)
    · exact .inl (hab ▸ hbc)
    · exact .inr ⟨hab.trans hbc, hn.trans hn'⟩

/-! ## Decoding -/

theorem collectEventsFromRows_cons [SerdeJson] {row : EventRow} {rows : List EventRow} :
    collectEventsFromRows (row :: rows) =
      match eventFromRow row, collectEventsFromRows rows with
      | .ok e, .ok es => .ok (e :: es)
      | .ok _, .error err => .error err
      | .error err, _ => .error err := by
  simp only [collectEventsFromRows]
  cases eventFromRow row with
  | error err => rfl
  | ok e => cases collectEventsFromRows rows <;> rfl

/-- Decoding goes from the first row to the last and stops at an error. -/
theorem collectEventsFromRows_append_eq [SerdeJson] (rows rows' : List EventRow) :
    collectEventsFromRows (rows ++ rows') =
      match collectEventsFromRows rows, collectEventsFromRows rows' with
      | .ok es, .ok es' => .ok (es ++ es')
      | .ok _, .error err => .error err
      | .error err, _ => .error err := by
  induction rows with
  | nil => cases h : collectEventsFromRows rows' <;> simp [collectEventsFromRows, h]
  | cons row rows ih =>
    rw [List.cons_append, collectEventsFromRows_cons, collectEventsFromRows_cons, ih]
    cases eventFromRow row with
    | error err => rfl
    | ok e =>
      cases collectEventsFromRows rows with
      | error err => rfl
      | ok es => cases collectEventsFromRows rows' <;> rfl

theorem length_of_collectEventsFromRows [SerdeJson] {rows : List EventRow} {es : List EventEnvelope}
    (h : collectEventsFromRows rows = .ok es) : es.length = rows.length := by
  induction rows generalizing es with
  | nil => cases h; rfl
  | cons row rows ih =>
    rw [collectEventsFromRows_cons] at h
    split at h
    · rename_i e es' _ hes
      cases h
      rw [List.length_cons, List.length_cons, ih hes]
    · cases h
    · cases h

/-- What a read gives of stored events: each of them as its row decodes. -/
def ReadAs [SerdeJson] (es out : List EventEnvelope) : Prop :=
  List.Forall₂ (fun e e' => e.decoded = .ok e') es out

theorem ReadAs.append [SerdeJson] {es es' out out' : List EventEnvelope} (h : ReadAs es out)
    (h' : ReadAs es' out') : ReadAs (es ++ es') (out ++ out') :=
  List.rel_append h h'

/-- The versions are those of the stored events. -/
theorem ReadAs.versions [SerdeJson] {es out : List EventEnvelope} (h : ReadAs es out) :
    out.map (fun e => e.version.get) = es.map fun e => e.version.get := by
  induction h with
  | nil => rfl
  | @cons e e' es out he _ ih =>
    rw [List.map_cons, List.map_cons, ih]
    unfold EventEnvelope.decoded at he
    cases hpayload : SerdeJson.fromStr e.payload with
    | error err =>
      rw [hpayload] at he
      cases he
    | ok payload =>
      rw [hpayload] at he
      rw [← Except.ok.inj he]

/-- What is read of events in version order is in that order. -/
theorem ReadAs.sorted [SerdeJson] {es out : List EventEnvelope} (h : ReadAs es out)
    (hes : es.Pairwise fun e e' => e.version.get < e'.version.get) : out.insertionSort eventLe = out := by
  have hversions : (es.map fun e => e.version.get).Pairwise (· < ·) := List.pairwise_map.2 hes
  rw [← h.versions] at hversions
  exact ((List.pairwise_map.1 hversions).imp fun hlt => hlt.le).insertionSort_eq

/-- **Stored envelopes** decode row by row. -/
theorem collectEventsFromRows_stored [SerdeJson] {es out : List EventEnvelope}
    (h : ∀ e ∈ es, e.Storable) :
    collectEventsFromRows (es.map EventEnvelope.toRow) = .ok out ↔ ReadAs es out := by
  induction es generalizing out with
  | nil =>
    refine ⟨fun hout => ?_, fun hout => ?_⟩
    · obtain rfl : [] = out := Except.ok.inj hout
      exact .nil
    · cases hout
      rfl
  | cons e es ih =>
    have hes : ∀ out', collectEventsFromRows (es.map EventEnvelope.toRow) = .ok out' ↔ ReadAs es out' :=
      fun out' => ih fun e' he' => h e' (List.mem_cons_of_mem _ he')
    rw [List.map_cons, collectEventsFromRows_cons, eventFromRow_toRow (h e List.mem_cons_self)]
    constructor
    · intro hout
      split at hout
      · rename_i e' es' he' hes'
        cases hout
        exact .cons he' ((hes es').1 hes')
      · cases hout
      · cases hout
    · rintro (_ | ⟨he', hes'⟩)
      rw [he', (hes _).2 hes']

/-- They decode to themselves iff each payload is read back. -/
theorem readAs_self_iff [SerdeJson] {es : List EventEnvelope} :
    ReadAs es es ↔ ∀ e ∈ es, e.payload.IsReadBack := by
  unfold ReadAs
  rw [List.forall₂_same]
  exact forall₂_congr fun e _ => EventEnvelope.decoded_eq_self_iff

/-! ## The loop over the ranges -/

section Loop

variable {H : Type} [DecidableEq H] {h : H} {w : World H} {P : EventRow → Prop} [DecidablePred P]

/-- The table of the events is there. -/
def HasEvents (w : World H) (name : Text) : Prop :=
  ∃ d, w.files.lookup name = some d ∧ d.events.isSome

/-- `query` asks a file for the first rows of its block. -/
def Queries [SerdeJson] (P : EventRow → Prop) [DecidablePred P] (h : H)
    (query : Text → Nat → StoreProgram (List EventEnvelope)) : Prop :=
  ∀ (w : World H) path n, HasEvents w path → wp (calm h) (query path n) (fun r w' => w' = w ∧
    r = (collectEventsFromRows ((block P w path).take n)).mapError Abort.es) w

omit [DecidableEq H] in
theorem ofExcept_eq {α : Type} (r : Except EsError α) :
    (ofExcept r : StoreProgram α) = .done (r.mapError Abort.es) := by
  cases r <;> rfl

/-- A query of a file whose rows decode. -/
theorem wp_query [SerdeJson] {s : Stmt} {f : List EventRow → List EventRow} (hans : s.Ans = List EventRow)
    (hs : s.isQuery = true) {path : Text}
    (hexec : ∀ d rows, d.events = some rows → s.exec d = .ok (cast hans.symm (f rows), d))
    (htable : HasEvents w path) :
    wp (calm h) ((getConnection (.eventFile path)).bind fun _ => (sql (.eventFile path) s).bind
      fun rows => ofExcept (collectEventsFromRows (cast hans rows)))
      (fun r w' => w' = w ∧ r = (collectEventsFromRows (f (w.rowsOf path))).mapError Abort.es) w := by
  obtain ⟨d, hd, hevents⟩ := htable
  obtain ⟨rows, hrows⟩ := Option.isSome_iff_exists.1 hevents
  have hrowsOf : w.rowsOf path = rows := by rw [World.rowsOf, hd]; simp [Db.rows, hrows]
  have hcalm : Calm (calm h) := fun _ _ _ he => he
  rw [wp_bind]
  refine wp_getConnection trivial (fun _ => ?_) fun err he => ?_
  · show wp _ ((sql (.eventFile path) s).bind _) _ _
    rw [wp_bind]
    refine wp_sql trivial (fun d' a d'' hd' hex => ⟨trivial, ?_⟩) fun err he => ?_
    · obtain rfl : d = d' := Option.some.inj (hd.symm.trans hd')
      rw [hexec d rows hrows] at hex
      cases hex
      rw [hs, hrowsOf]
      simp only [ofExcept_eq, if_true, cast_cast, cast_eq]
      exact ⟨rfl, rfl⟩
    · rcases he with he | he | ⟨d', x, hd', hex⟩
      · exact absurd hcalm he
      · exact absurd (hd.symm.trans he) (by simp)
      · obtain rfl : d = d' := Option.some.inj (hd.symm.trans hd')
        rw [hexec d rows hrows] at hex
        cases hex
  · rcases he with he | he
    · exact absurd hcalm he
    · exact absurd (hd.symm.trans he) (by simp)

theorem queries_afterVersion [SerdeJson] (cursor : Int) : Queries (AfterCursor cursor) h fun path remaining =>
    queryPartitionEventsAfterVersion path cursor remaining := by
  intro w path n htable
  exact wp_query rfl (s := .queryEventsAfterVersion cursor n) rfl
    (f := fun rows => ((rows.filter fun r => AfterCursor cursor r).insertionSort versionLe).take n)
    (fun d rows hrows => Stmt.exec_queryEvents.2 ⟨rows, hrows, rfl, rfl⟩) htable

/-- **The loop** takes what is left of the limit from one block after the other, and never more than
that. -/
theorem wp_loadFromRanges [SerdeJson] {query : Text → Nat → StoreProgram (List EventEnvelope)}
    (hquery : Queries P h query) {limit : Nat} {ranges : List EventFileRange}
    (htables : ∀ r ∈ ranges, HasEvents w r.path) (events : List EventEnvelope)
    (hlen : events.length ≤ limit) :
    wp (calm h) (loadFromRanges query limit ranges events) (fun r w' => w' = w ∧
      r = ((collectEventsFromRows ((ranges.flatMap fun r => block P w r.path).take
        (limit - events.length))).map (events ++ ·)).mapError Abort.es) w := by
  induction ranges generalizing events with
  | nil => simp [loadFromRanges, collectEventsFromRows, Except.map, Except.mapError]
  | cons range ranges ih =>
    rw [loadFromRanges, if_neg (by omega)]
    by_cases hfull : limit - events.length = 0
    · rw [if_pos hfull, hfull]
      simp [collectEventsFromRows, Except.map, Except.mapError]
    · rw [if_neg hfull, bind_eq, wp_bind, Tiles.take_append_flatMap, collectEventsFromRows_append_eq]
      refine wp_mono (hquery w _ _ (htables range (by simp))) fun r w' hr => ?_
      obtain ⟨rfl, rfl⟩ := hr
      cases hmore : collectEventsFromRows ((block P w' range.path).take (limit - events.length)) with
      | error err => exact ⟨rfl, rfl⟩
      | ok more =>
        have hmorelen := length_of_collectEventsFromRows hmore
        have hle : more.length ≤ limit - events.length := by
          rw [hmorelen, List.length_take]
          omega
        have hnext := ih (fun r hr => htables r (List.mem_cons_of_mem _ hr)) (events ++ more)
          (by rw [List.length_append]; omega)
        refine wp_mono hnext fun r w'' hr => ⟨hr.1, ?_⟩
        rw [hr.2, List.length_append, ← hmorelen,
          show limit - (events.length + more.length) = limit - events.length - more.length by omega]
        cases collectEventsFromRows ((ranges.flatMap fun r => block P w' r.path).take
          (limit - events.length - more.length)) with
        | error err => rfl
        | ok rest => simp [Except.map, Except.mapError]

end Loop

/-! ## The blocks make up the stream -/

theorem pairwise_versionsFrom (p : Int) (n : Nat) : (versionsFrom p n).Pairwise (· < ·) := by
  induction n generalizing p with
  | zero => exact .nil
  | succ n ih =>
    rw [versionsFrom, List.pairwise_cons]
    refine ⟨fun v hv => ?_, ih (p + 1)⟩
    have := (mem_versionsFrom.1 hv).1
    omega

section Stream

variable {w : World Unit} {P : EventRow → Prop} [DecidablePred P]

/-- The stored events in version order. -/
theorem Ledger.pairwise (hl : Ledger w) :
    (w.log.map EventEnvelope.toRow).Pairwise fun x y => x.version < y.version := by
  have hversions : (w.log.map EventEnvelope.toRow).map EventRow.version =
      versionsFrom 0 w.log.length := by
    rw [List.map_map]
    exact hl.versions
  have hpairs := pairwise_versionsFrom 0 w.log.length
  rw [← hversions] at hpairs
  exact List.pairwise_map.1 hpairs

/-- No version comes twice in a file. -/
theorem Ledger.nodup_rowsOf (hl : Ledger w) (name : Text) :
    ((w.rowsOf name).map EventRow.version).Nodup := by
  have hall : (w.allRows.map EventRow.version).Nodup :=
    hl.perm.nodup_iff.2 ((pairwise_versionsFrom 0 w.log.length).imp fun h => h.ne)
  rw [((w.allRows_perm name).map EventRow.version).nodup_iff, List.map_append] at hall
  exact hall.of_append_left

theorem mem_block {name : Text} {row : EventRow} :
    row ∈ block P w name ↔ row ∈ w.rowsOf name ∧ P row := by
  rw [block, (List.perm_insertionSort _ _).mem_iff, List.mem_filter, decide_eq_true_eq]

theorem Ledger.pairwise_block (hl : Ledger w) (name : Text) :
    (block P w name).Pairwise fun x y => x.version < y.version := by
  refine Tiles.pairwise_lt_insertionSort (fun _ _ => Iff.rfl) ?_
  exact (hl.nodup_rowsOf name).sublist (List.filter_sublist.map _)

/-- A range with a successor that the catalog leaves out holds no event after the cursor. -/
theorem Tiled.pruned_old (ht : Tiled w) {cursor : Int} {init : List EventFileRange}
    {r rn : EventFileRange} (hinit : w.ranges = init ++ [rn]) (hr : r ∈ init)
    (hnot : r ∉ rangesAfter cursor w.ranges) {row : EventRow} (hrow : row ∈ w.rowsOf r.name) :
    row.version ≤ cursor := by
  have hmem : r ∈ w.ranges := by rw [hinit]; exact List.mem_append_left _ hr
  obtain ⟨init', rn', hinit', -, -, hupper⟩ := ht.newest
  obtain ⟨rfl, -⟩ := List.append_inj' (hinit.symm.trans hinit') rfl
  cases hlast : r.lastVersion with
  | none => exact absurd (List.mem_filter.2 ⟨hmem, by rw [hlast]⟩) hnot
  | some last =>
    have hle : last ≤ cursor := by
      by_contra hlt
      exact hnot (List.mem_filter.2 ⟨hmem, by rw [hlast]; exact decide_eq_true (by omega)⟩)
    exact (hupper r hr last hlast row hrow).trans hle

/-- A range that the catalog leaves out holds no event after the cursor. -/
theorem Tiled.pruned (ht : Tiled w) (hopen : NewestOpen w) {cursor : Int} {r : EventFileRange}
    (hr : r ∈ w.ranges) (hnot : r ∉ rangesAfter cursor w.ranges) {row : EventRow}
    (hrow : row ∈ w.rowsOf r.name) : row.version ≤ cursor := by
  obtain ⟨init, rn, hinit, hnone⟩ := hopen
  have hcases := hr
  rw [hinit] at hcases
  rcases List.mem_append.1 hcases with hold | hnew
  · exact ht.pruned_old hinit hold hnot hrow
  · obtain rfl := List.mem_singleton.1 hnew
    exact absurd (List.mem_filter.2 ⟨hr, by rw [hnone]⟩) hnot

/-- Leaving out what contributes nothing. -/
theorem flatMap_filter_of_nil {α β : Type} {p : α → Bool} {f : α → List β} {l : List α}
    (h : ∀ a ∈ l, ¬p a = true → f a = []) : (l.filter p).flatMap f = l.flatMap f := by
  induction l with
  | nil => rfl
  | cons a l ih =>
    have hl := ih fun a' ha' => h a' (List.mem_cons_of_mem _ ha')
    by_cases ha : p a = true
    · rw [List.filter_cons_of_pos ha, List.flatMap_cons, List.flatMap_cons, hl]
    · rw [List.filter_cons_of_neg ha, List.flatMap_cons, h a (by simp) ha, hl, List.nil_append]

/-- **The blocks** of ranges in the order of their first versions are what a read selects from the
stream, if the other ranges hold nothing of it. -/
theorem Tiled.flatMap_sorted (ht : Tiled w) {asked : List EventFileRange} (hnodup : asked.Nodup)
    (hmem : ∀ r ∈ asked, r ∈ w.ranges)
    (hsorted : asked.Pairwise fun r r' => r.firstVersion ≤ r'.firstVersion)
    (hrest : ∀ r ∈ w.ranges, r ∉ asked → ∀ row ∈ w.rowsOf r.name, ¬P row) :
    (asked.flatMap fun r => block P w r.name) = (w.log.map EventEnvelope.toRow).filter P := by
  refine Tiles.eq_of_perm_of_pairwise_lt EventRow.version ?_ ?_
    (ht.toLedger.pairwise.sublist List.filter_sublist)
  · -- what is left out and how the rows are sorted makes no difference to what is selected
    have hasked : asked.Perm (w.ranges.filter fun r => r ∈ asked) := by
      refine (List.perm_ext_iff_of_nodup hnodup (ht.nodup.of_map.filter _)).2 fun r => ?_
      simp only [List.mem_filter, decide_eq_true_eq]
      exact ⟨fun hr => ⟨hmem r hr, hr⟩, fun hr => hr.2⟩
    have hblocks : (asked.flatMap fun r => block P w r.name).Perm
        ((w.ranges.filter fun r => r ∈ asked).flatMap fun r => (w.rowsOf r.name).filter P) :=
      (List.Perm.flatMap_left asked fun r _ => List.perm_insertionSort _ _).trans
        (hasked.flatMap_right _)
    rw [flatMap_filter_of_nil, ← List.filter_flatMap] at hblocks
    · exact hblocks.trans (ht.covered.filter P)
    · refine fun r hr hnot => List.filter_eq_nil_iff.2 fun row hrow hP => ?_
      exact hrest r hr (by simpa using hnot) row hrow (of_decide_eq_true hP)
  · exact ht.laid.pairwise_flatMap hmem hnodup hsorted
      (fun r _ => ht.toLedger.pairwise_block r.name) fun r _ row hrow => (mem_block.1 hrow).1

/-- What the catalog answers to a read comes in the order of first versions. -/
theorem Tiled.asked (ht : Tiled w) (cursor : Int) :
    ((rangesAfter cursor w.ranges).insertionSort rangeLe).Nodup ∧
      (∀ r, r ∈ (rangesAfter cursor w.ranges).insertionSort rangeLe ↔
        r ∈ rangesAfter cursor w.ranges) ∧
      ((rangesAfter cursor w.ranges).insertionSort rangeLe).Pairwise
        fun r r' => r.firstVersion ≤ r'.firstVersion := by
  have hperm := List.perm_insertionSort rangeLe (rangesAfter cursor w.ranges)
  refine ⟨hperm.nodup_iff.2 (ht.nodup.of_map.sublist List.filter_sublist), fun r => hperm.mem_iff, ?_⟩
  refine (List.pairwise_insertionSort rangeLe _).imp fun {r r'} hle => ?_
  rcases hle with hlt | ⟨heq, -⟩
  · exact hlt.le
  · exact heq.le

/-- The files that are asked give what the read selects from the stream. -/
theorem Tiled.flatMap_block (ht : Tiled w) (hopen : NewestOpen w) {cursor : Int}
    (hafter : ∀ row, P row → cursor < row.version) :
    (((rangesAfter cursor w.ranges).insertionSort rangeLe).flatMap fun r => block P w r.path) =
      (w.log.map EventEnvelope.toRow).filter P := by
  obtain ⟨hnodup, hasked, hsorted⟩ := ht.asked cursor
  have hmem : ∀ r ∈ (rangesAfter cursor w.ranges).insertionSort rangeLe, r ∈ w.ranges :=
    fun r hr => List.mem_of_mem_filter ((hasked r).1 hr)
  rw [List.flatMap_congr fun r hr => by rw [ht.path r (hmem r hr)]]
  refine ht.flatMap_sorted hnodup hmem hsorted fun r hr hnot row hrow hP => ?_
  have hle := ht.pruned hopen hr (fun h => hnot ((hasked r).2 h)) hrow
  have hlt := hafter row hP
  omega

theorem page_eq_map (limit : Nat) :
    ((w.log.map EventEnvelope.toRow).filter P).take limit = (page P w limit).map EventEnvelope.toRow := by
  rw [page, List.filter_map, List.map_take]
  rfl

/-- A page is in version order. -/
theorem Ledger.pairwise_page (hl : Ledger w) (limit : Nat) :
    (page P w limit).Pairwise fun e e' => e.version.get < e'.version.get := by
  have hpairs := List.pairwise_map.1 hl.pairwise
  exact hpairs.sublist ((List.take_sublist _ _).trans List.filter_sublist)

theorem Tiled.storable_page (ht : Tiled w) (limit : Nat) : ∀ e ∈ page P w limit, e.Storable :=
  fun e he => ht.storable e (List.mem_of_mem_filter (List.mem_of_mem_take he))

/-- What is read of a page stays as it is when it is sorted and cut to the limit. -/
theorem Ledger.sorted_page [SerdeJson] {limit : Nat} {out : List EventEnvelope} (hl : Ledger w)
    (hread : ReadAs (page P w limit) out) : (out.insertionSort eventLe).take limit = out := by
  rw [hread.sorted (hl.pairwise_page limit)]
  refine List.take_of_length_le ?_
  rw [← hread.length_eq]
  exact List.length_take_le _ _

/-- **A bounded read** answers the first events that it selects from the stream, as their rows decode. -/
theorem wp_loadWith [SerdeJson] {query : Text → Nat → StoreProgram (List EventEnvelope)}
    {cursor : EventStreamVersion} {limit : Nat} (ht : Tiled w) (hopen : NewestOpen w)
    (hquery : Queries P () query) (hafter : ∀ row, P row → cursor.get < row.version)
    (hlimit : validateReadLimit limit = .ok ()) :
    wp (calm ()) (loadWith query cursor limit) (fun r w' => w' = w ∧
      r = (collectEventsFromRows ((page P w limit).map EventEnvelope.toRow)).mapError Abort.es) w := by
  have hcalm : Calm (calm ()) := fun _ _ _ he => he
  have hcatalog : w.catalog.bind Db.ranges ≠ none := by
    obtain ⟨init, r, hinit, -⟩ := hopen
    intro hnone
    rw [World.ranges, hnone] at hinit
    simp at hinit
  -- every file the catalog names has its table
  have htables : ∀ r ∈ (rangesAfter cursor.get w.ranges).insertionSort rangeLe,
      HasEvents w r.path := by
    intro r hr
    have hmem := List.mem_of_mem_filter ((List.perm_insertionSort _ _).mem_iff.1 hr)
    rw [ht.path r hmem]
    exact ht.tables r hmem
  unfold loadWith
  rw [hlimit]
  show wp (calm ()) ((getEventFileRangesAfterVersion cursor.get).bind _) _ w
  rw [wp_bind]
  refine wp_getEventFileRangesAfterVersion (fun _ _ => trivial) (fun _ => ?_) fun err he => ?_
  · show wp (calm ()) ((loadFromRanges query limit _ []).bind _) _ w
    rw [wp_bind]
    refine wp_mono (wp_loadFromRanges hquery htables [] (Nat.zero_le limit)) fun r w' hr => ?_
    obtain ⟨rfl, rfl⟩ := hr
    -- file by file the rows come out as one page of the log
    rw [ht.flatMap_block hopen hafter, List.length_nil, Nat.sub_zero, page_eq_map]
    cases hout : collectEventsFromRows ((page P w' limit).map EventEnvelope.toRow) with
    | error err => exact ⟨rfl, rfl⟩
    | ok out =>
      have hread := (collectEventsFromRows_stored (ht.storable_page limit)).1 hout
      refine ⟨rfl, ?_⟩
      show Except.ok ((out.insertionSort eventLe).take limit) = _
      rw [ht.toLedger.sorted_page hread]
      rfl
  · rcases he with he | he
    · exact absurd hcalm he
    · exact absurd he hcatalog

end Stream

/-! ## The answers -/

/-- What `load_after_version` answers when nothing fails and nobody writes meanwhile. -/
def World.loadAfterVersion [SerdeJson] (w : World Unit) (cursor : EventStreamVersion) (limit : Nat) :
    Except Abort (List EventEnvelope) :=
  ((Events.loadAfterVersion cursor limit).eval (storeMachine ()) (fun _ => {}) 0 w).1

/-- What `load_workflow_after_version` answers when nothing fails and nobody writes meanwhile. -/
def World.loadWorkflowAfterVersion [SerdeJson] (w : World Unit) (workflowStartedByEventId : Uuid)
    (cursor : EventStreamVersion) (limit : Nat) : Except Abort (List EventEnvelope) :=
  ((Events.loadWorkflowAfterVersion workflowStartedByEventId cursor limit).eval (storeMachine ())
    (fun _ => {}) 0 w).1

section Answers

variable {w : World Unit} {cursor : EventStreamVersion} {limit : Nat}

theorem validateReadLimit_ok (hpos : 0 < limit) (hle : limit ≤ maxReadLimit) :
    validateReadLimit limit = .ok () := by
  unfold validateReadLimit
  rw [if_neg (by omega)]

/-- An answer is the page iff all of it is read back. -/
theorem answer_iff [SerdeJson] {r : Except Abort (List EventEnvelope)} {es : List EventEnvelope}
    (hes : ∀ e ∈ es, e.Storable)
    (h : r = (collectEventsFromRows (es.map EventEnvelope.toRow)).mapError Abort.es) :
    r = .ok es ↔ ∀ e ∈ es, e.payload.IsReadBack := by
  rw [← readAs_self_iff, ← collectEventsFromRows_stored hes, h]
  cases collectEventsFromRows (es.map EventEnvelope.toRow) with
  | error err => exact iff_of_false (fun h => by cases h) fun h => by cases h
  | ok out => exact ⟨fun h => congrArg Except.ok (Except.ok.inj h), fun h => by rw [h]; rfl⟩

/-- **`load_after_version`** answers the first events after the cursor, iff they are read back. -/
theorem loadAfterVersion_iff [SerdeJson] (ht : Tiled w) (hopen : NewestOpen w) (hpos : 0 < limit)
    (hle : limit ≤ maxReadLimit) :
    w.loadAfterVersion cursor limit = .ok (page (AfterCursor cursor.get) w limit) ↔
      ∀ e ∈ page (AfterCursor cursor.get) w limit, e.payload.IsReadBack :=
  answer_iff (ht.storable_page limit) (wp_eval (C := calm ()) (fun _ _ _ => ⟨rfl, fun _ => rfl⟩) 0
    (wp_loadWith ht hopen (queries_afterVersion cursor.get) (fun _ h => h)
      (validateReadLimit_ok hpos hle))).2

end Answers

end Events
