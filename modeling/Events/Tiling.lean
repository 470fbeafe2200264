import Events.VersionSpace
import Events.Lib.Tiles

/-!
# The ranges of the catalog tile the stream

As long as every rotation goes to a name without a file, the ranges of the catalog are tiles laid
one after the other: each starts above everything stored before it, and only the newest one grows.

* **`Block`** — what a file holds, by where its range starts and by its append head.
* **`Tiled`** — the invariant, kept by every single step of a rotation and of an append, whatever
  fails (`Tiled.sealed`, `Tiled.listed`, `Tiled.appended`).
* **`Grows`** — how the store changes: the files of old ranges stay as they are, the newest one gets
  the events that follow.
* **`OpenNewest`** — all ranges but the newest are sealed, as they are between two calls when no step
  fails.
* **`wp_rotate_tiled`**, **`Tiled.appendStep`** — a rotation and an append.
-/

namespace Events

open Proc Program

/-! ## What the statements on the ranges do -/

theorem upsert_new {range : EventFileRange} {rs : List EventFileRange}
    (h : ∀ r ∈ rs, r.name ≠ range.name) : Stmt.upsert range rs = rs ++ [range] := by
  unfold Stmt.upsert
  rw [if_neg]
  simpa using h

/-- The range `r` sealed at `last`. -/
def EventFileRange.sealAt (r : EventFileRange) (last : Int) : EventFileRange :=
  { r with isSealed := true, lastVersion := some last }

theorem sealRange_newest {init : List EventFileRange} {r : EventFileRange} {last : Int}
    (hnodup : ((init ++ [r]).map EventFileRange.name).Nodup) :
    Stmt.sealRange r.name last (init ++ [r]) = init ++ [r.sealAt last] := by
  have hne : ∀ r' ∈ init, r'.name ≠ r.name := by
    intro r' hr'
    rw [List.map_append, List.nodup_append] at hnodup
    exact hnodup.2.2 _ (List.mem_map_of_mem hr') _ (by simp)
  unfold Stmt.sealRange
  rw [List.map_append]
  congr 1
  · conv_rhs => rw [← List.map_id init]
    refine List.map_congr_left fun r' hr' => ?_
    rw [if_neg (hne r' hr')]
    rfl
  · simp [EventFileRange.sealAt]

/-! ## The invariant -/

/-- The rows of a file whose range starts at `first` and whose append head is `head`: none, the head
being just below `first`, or some, from `first` to `head`. -/
def Block (first head : Int) (rows : List EventRow) : Prop :=
  (rows = [] ∧ head + 1 = first) ∨
    ((∃ lo ∈ rows, lo.version = first) ∧ (∃ hi ∈ rows, hi.version = head) ∧
      ∀ row ∈ rows, first ≤ row.version ∧ row.version ≤ head)

theorem Block.bounds {first head : Int} {rows : List EventRow} (h : Block first head rows)
    {row : EventRow} (hrow : row ∈ rows) : first ≤ row.version ∧ row.version ≤ head := by
  rcases h with ⟨rfl, -⟩ | ⟨-, -, hbounds⟩
  · cases hrow
  · exact hbounds row hrow

theorem Block.first_le {first head : Int} {rows : List EventRow} (h : Block first head rows) :
    first ≤ head + 1 := by
  rcases h with ⟨-, hhead⟩ | ⟨-, ⟨hi, hmem, rfl⟩, hbounds⟩
  · omega
  · have := (hbounds hi hmem).1
    omega

/-- The rows that follow the head. -/
theorem Block.append {first head : Int} {rows more : List EventRow} {k : Nat}
    (h : Block first head rows) (hmore : more.map EventRow.version = versionsFrom head k)
    (hk : k ≠ 0) : Block first (head + k) (rows ++ more) := by
  have hmem : ∀ {row}, row ∈ more → head < row.version ∧ row.version ≤ head + k := fun {row} hrow =>
    mem_versionsFrom.1 (by rw [← hmore]; exact List.mem_map_of_mem hrow)
  have hex : ∀ {v}, head < v → v ≤ head + k → ∃ row ∈ more, row.version = v := fun {v} h₁ h₂ =>
    List.mem_map.1 (by rw [hmore]; exact mem_versionsFrom.2 ⟨h₁, h₂⟩)
  obtain ⟨hi, hhi, hhiv⟩ := hex (v := head + k) (by omega) (by omega)
  right
  rcases h with ⟨rfl, rfl⟩ | ⟨⟨lo, hlo, hlov⟩, -, hbounds⟩
  · obtain ⟨lo, hlo, hlov⟩ := hex (v := head + 1) (by omega) (by omega)
    refine ⟨⟨lo, by simpa using hlo, hlov⟩, ⟨hi, by simpa using hhi, hhiv⟩, fun row hrow => ?_⟩
    have := hmem (by simpa using hrow)
    omega
  · refine ⟨⟨lo, List.mem_append_left _ hlo, hlov⟩, ⟨hi, List.mem_append_right _ hhi, hhiv⟩, ?_⟩
    intro row hrow
    rcases List.mem_append.1 hrow with hrow | hrow
    · have := hbounds row hrow
      omega
    · have := hmem hrow
      have := hbounds lo hlo
      omega

/-- The ranges of the catalog are tiles of the stream. -/
structure Tiled (w : World Unit) : Prop extends Ledger w where
  storable : ∀ e ∈ w.log, e.Storable
  nodup : (w.ranges.map EventFileRange.name).Nodup
  path : ∀ r ∈ w.ranges, r.path = r.name
  tables : ∀ r ∈ w.ranges, ∃ d, w.files.lookup r.name = some d ∧ d.events.isSome
  covered : (w.ranges.flatMap fun r => w.rowsOf r.name).Perm (w.log.map EventEnvelope.toRow)
  blocks : ∀ r ∈ w.ranges, ∃ head, w.headOf r.name = some head ∧
    Block r.firstVersion head (w.rowsOf r.name)
  order : w.ranges.Pairwise fun r r' => r.firstVersion ≤ r'.firstVersion ∧
    ∀ row ∈ w.rowsOf r.name, row.version < r'.firstVersion
  newest : ∃ init r, w.ranges = init ++ [r] ∧ w.headOf r.name = some (w.log.length : Int) ∧
    (∀ l, r.lastVersion = some l → r.firstVersion ≤ l + 1) ∧
    ∀ r' ∈ init, ∀ l, r'.lastVersion = some l → ∀ row ∈ w.rowsOf r'.name, row.version ≤ l

/-- `name` is the file of the newest range. -/
def Newest (w : World Unit) (name : Text) : Prop :=
  ∃ init r, w.ranges = init ++ [r] ∧ r.name = name

/-- The handle, if it is open, writes to the newest file. -/
def WritesNewest (w : World Unit) : Prop :=
  ∀ p a, w.handles () = some (p, a) → Newest w a.name

/-- Only the newest range is not sealed. -/
def OpenNewest (w : World Unit) : Prop :=
  ∃ init r, w.ranges = init ++ [r] ∧ (∀ r' ∈ init, r'.isSealed = true) ∧ r.isSealed = false ∧
    r.lastVersion = none

/-- How the store changes: the ranges that are not the newest stay, with what they hold, and the
newest one, as long as it is, gets the events that follow. -/
structure Grows (w w' : World Unit) : Prop where
  log : w.log <+: w'.log
  old : ∀ r ∈ w.ranges.dropLast, r ∈ w'.ranges.dropLast ∧ w'.rowsOf r.name = w.rowsOf r.name
  newest : ∀ r, w.ranges.getLast? = some r → ∃ j, w'.rowsOf r.name =
      w.rowsOf r.name ++ ((w'.log.drop w.log.length).take j).map EventEnvelope.toRow ∧
    ((∃ r' ∈ w'.ranges.dropLast, r'.name = r.name) ∨
      ∃ r', w'.ranges.getLast? = some r' ∧ r'.name = r.name ∧ w'.log.length ≤ w.log.length + j)

/-- A sealed range stays as it is, with what its file holds. -/
def SealedKept (w w' : World Unit) : Prop :=
  ∀ r ∈ w.ranges, r.isSealed = true → r ∈ w'.ranges ∧ w'.rowsOf r.name = w.rowsOf r.name

section Tiled

variable {w w' : World Unit}

theorem SealedKept.refl (w : World Unit) : SealedKept w w := fun _ hr _ => ⟨hr, rfl⟩

theorem SealedKept.trans {w₁ w₂ w₃ : World Unit} (h : SealedKept w₁ w₂) (h' : SealedKept w₂ w₃) :
    SealedKept w₁ w₃ := fun r hr hs =>
  ⟨(h' r (h r hr hs).1 hs).1, (h' r (h r hr hs).1 hs).2.trans (h r hr hs).2⟩

/-- Nothing has changed in the catalog and in the files. -/
theorem Grows.of_same (hlog : w'.log = w.log) (hranges : w'.ranges = w.ranges)
    (hrows : ∀ name, w'.rowsOf name = w.rowsOf name) : Grows w w' where
  log := ⟨[], by rw [hlog, List.append_nil]⟩
  old r hr := by rw [hranges]; exact ⟨hr, hrows _⟩
  newest r hr := ⟨0, by simp [hrows], .inr ⟨r, by rw [hranges, hr], rfl, by simp [hlog]⟩⟩

theorem Grows.refl (w : World Unit) : Grows w w := .of_same rfl rfl fun _ => rfl

/-- The events that follow, read in a log that has grown. -/
theorem drop_take_of_prefix {l l' : List EventEnvelope} (h : l <+: l') (n j : Nat) :
    (l.drop n).take j = (l'.drop n).take (min j (l.length - n)) := by
  obtain ⟨more, rfl⟩ := h
  rw [List.drop_append, List.take_append_of_le_length (by rw [List.length_drop]; omega)]
  rw [← List.length_drop, List.take_eq_take_min]

theorem Grows.trans {w₁ w₂ w₃ : World Unit} (h : Grows w₁ w₂) (h' : Grows w₂ w₃) : Grows w₁ w₃ where
  log := h.log.trans h'.log
  old r hr := ⟨(h'.old r (h.old r hr).1).1, ((h'.old r (h.old r hr).1).2).trans (h.old r hr).2⟩
  newest r hr := by
    obtain ⟨j, hrows, hnext⟩ := h.newest r hr
    rcases hnext with ⟨r', hr', hname⟩ | ⟨r', hr', hname, hall⟩
    · -- no longer the newest: its file stays
      obtain ⟨hr'', hrows'⟩ := h'.old r' hr'
      refine ⟨min j (w₂.log.length - w₁.log.length), ?_, .inl ⟨r', hr'', hname⟩⟩
      rw [hname] at hrows'
      rw [hrows', hrows, drop_take_of_prefix h'.log]
    · obtain ⟨j', hrows', hnext'⟩ := h'.newest r' hr'
      rw [hname] at hrows' hnext'
      have hle₁ := h.log.length_le
      have hle₂ := h'.log.length_le
      refine ⟨w₂.log.length - w₁.log.length + j', ?_, ?_⟩
      · have hfirst := drop_take_of_prefix h'.log w₁.log.length j
        rw [show min j (w₂.log.length - w₁.log.length) = w₂.log.length - w₁.log.length by omega]
          at hfirst
        rw [hrows', hrows, List.append_assoc, ← List.map_append, hfirst, List.take_add, List.drop_drop,
          show w₁.log.length + (w₂.log.length - w₁.log.length) = w₂.log.length by omega]
      · refine hnext'.imp_right fun ⟨r'', hr'', hname', hall'⟩ => ⟨r'', hr'', hname', ?_⟩
        omega

namespace Tiled

theorem laid (ht : Tiled w) : Tiles.Laid EventFileRange.firstVersion EventRow.version
    (fun r => w.rowsOf r.name) w.ranges where
  lower r hr row hrow := by
    obtain ⟨head, -, hb⟩ := ht.blocks r hr
    exact (hb.bounds hrow).1
  order := ht.order

theorem newest_head (ht : Tiled w) {name : Text} (hn : Newest w name) :
    w.headOf name = some (w.log.length : Int) := by
  obtain ⟨init, r, hranges, hhead, -⟩ := ht.newest
  obtain ⟨init', r', hranges', rfl⟩ := hn
  obtain ⟨-, hr⟩ := List.append_inj' (hranges.symm.trans hranges') rfl
  obtain rfl := List.singleton_inj.1 hr
  exact hhead

/-- The catalog, the events and the files of the ranges are as they were. -/
theorem of_same (ht : Tiled w) (hl : Ledger w') (hlog : w'.log = w.log)
    (hranges : w'.ranges = w.ranges)
    (hfiles : ∀ r ∈ w.ranges, w'.files.lookup r.name = w.files.lookup r.name) : Tiled w' := by
  have hrows : ∀ r ∈ w.ranges, w'.rowsOf r.name = w.rowsOf r.name := fun r hr => by
    rw [World.rowsOf, hfiles r hr, World.rowsOf]
  have hheads : ∀ r ∈ w.ranges, w'.headOf r.name = w.headOf r.name := fun r hr => by
    rw [World.headOf, hfiles r hr, World.headOf]
  refine { toLedger := hl, storable := ?_, nodup := ?_, path := ?_, tables := ?_, covered := ?_,
           blocks := ?_, order := ?_, newest := ?_ }
  · rw [hlog]; exact ht.storable
  · rw [hranges]; exact ht.nodup
  · rw [hranges]; exact ht.path
  · rw [hranges]
    intro r hr
    rw [hfiles r hr]
    exact ht.tables r hr
  · rw [hranges, hlog]
    refine List.Perm.trans (List.Perm.of_eq ?_) ht.covered
    exact List.flatMap_congr hrows
  · rw [hranges]
    intro r hr
    rw [hheads r hr, hrows r hr]
    exact ht.blocks r hr
  · rw [hranges]
    exact ht.order.imp_of_mem fun {r r'} hr _ h => by rw [hrows r hr]; exact h
  · obtain ⟨init, r, hinit, hhead, hlast, hupper⟩ := ht.newest
    have hmem : ∀ r' ∈ init, r' ∈ w.ranges := fun r' hr' => by rw [hinit]; exact List.mem_append_left _ hr'
    refine ⟨init, r, by rw [hranges, hinit], ?_, hlast, fun r' hr' => ?_⟩
    · rw [hheads r (by rw [hinit]; simp), hlog]
      exact hhead
    · rw [hrows r' (hmem r' hr')]
      exact hupper r' hr'

/-- Sealing the newest range at the number of events. -/
theorem sealed (ht : Tiled w) {init : List EventFileRange} {r : EventFileRange}
    (hinit : w.ranges = init ++ [r])
    (hu : RangesUpdated (Stmt.sealRange r.name w.log.length) w w') :
    Tiled w' ∧ Grows w w' ∧ w'.ranges = init ++ [r.sealAt w.log.length] := by
  have hranges : w'.ranges = init ++ [r.sealAt w.log.length] := by
    rw [hu.ranges, hinit, sealRange_newest (by rw [← hinit]; exact ht.nodup)]
  have hrows : ∀ name, w'.rowsOf name = w.rowsOf name := fun name => by
    rw [World.rowsOf, hu.files, World.rowsOf]
  have hheads : ∀ name, w'.headOf name = w.headOf name := fun name => by
    rw [World.headOf, hu.files, World.headOf]
  have hr : r ∈ w.ranges := by rw [hinit]; simp
  -- a property of the ranges that says nothing about their end
  have hall : ∀ {P : Text → Text → Int → Prop}, (∀ r' ∈ w.ranges, P r'.name r'.path r'.firstVersion) →
      ∀ r' ∈ w'.ranges, P r'.name r'.path r'.firstVersion := by
    intro P h r' hr'
    rw [hranges] at hr'
    rcases List.mem_append.1 hr' with hr' | hr'
    · exact h r' (by rw [hinit]; exact List.mem_append_left _ hr')
    · rw [List.mem_singleton.1 hr']
      exact h r hr
  refine ⟨{ toLedger := ht.toLedger.sameFiles hu.toSameFiles, storable := ?_, nodup := ?_,
            path := hall (P := fun name path _ => path = name) ht.path,
            tables := ?_, covered := ?_, blocks := ?_, order := ?_, newest := ?_ }, ?_, hranges⟩
  · rw [hu.log]; exact ht.storable
  · rw [hranges]
    have := ht.nodup
    rw [hinit] at this
    simpa [EventFileRange.sealAt] using this
  · refine hall (P := fun name _ _ => ∃ d, w'.files.lookup name = some d ∧ d.events.isSome) ?_
    rw [hu.files]
    exact ht.tables
  · rw [hu.log]
    refine List.Perm.trans (List.Perm.of_eq ?_) ht.covered
    rw [hranges, hinit]
    simp [hrows, EventFileRange.sealAt]
  · refine hall (P := fun name _ first => ∃ head, w'.headOf name = some head ∧
      Block first head (w'.rowsOf name)) ?_
    simpa only [hrows, hheads] using ht.blocks
  · have horder := ht.order
    rw [hinit, List.pairwise_append] at horder
    rw [hranges, List.pairwise_append]
    simp only [hrows]
    refine ⟨horder.1, List.pairwise_singleton _ _, fun r' hr' r'' hr'' => ?_⟩
    rw [List.mem_singleton.1 hr'']
    exact horder.2.2 r' hr' r (by simp)
  · obtain ⟨init', r', hinit', hhead, hlast, hupper⟩ := ht.newest
    obtain ⟨rfl, hrr⟩ := List.append_inj' (hinit.symm.trans hinit') rfl
    obtain rfl := List.singleton_inj.1 hrr
    refine ⟨init, r.sealAt w.log.length, hranges, ?_, ?_, ?_⟩
    · rw [hheads, hu.log]; exact hhead
    · intro l hl
      obtain rfl : (w.log.length : Int) = l := by simpa [EventFileRange.sealAt] using hl
      obtain ⟨head, hh, hb⟩ := ht.blocks r hr
      obtain rfl : head = w.log.length := Option.some.inj (hh.symm.trans hhead)
      exact hb.first_le
    · simpa only [hrows] using hupper
  · refine ⟨⟨[], by rw [hu.log, List.append_nil]⟩, ?_, ?_⟩
    · rw [hranges, hinit]
      intro r' hr'
      simp only [List.dropLast_concat] at hr' ⊢
      exact ⟨hr', hrows _⟩
    · intro r' hr'
      rw [hinit, List.getLast?_concat, Option.some.injEq] at hr'
      subst hr'
      refine ⟨0, by simp [hrows], .inr ⟨r.sealAt w.log.length, ?_, rfl, by simp [hu.log]⟩⟩
      rw [hranges, List.getLast?_concat]

/-- A new range, of a new file whose head is the number of events. -/
theorem listed (ht : Tiled w) {new : Text} (hnew : ∀ r ∈ w.ranges, r.name ≠ new)
    (hfile : w.files.lookup new = some (freshFile w.log.length))
    (hlast : ∀ init r, w.ranges = init ++ [r] → ∀ l, r.lastVersion = some l →
      ∀ row ∈ w.rowsOf r.name, row.version ≤ l)
    (hu : RangesUpdated (Stmt.upsert (rangeOf new w.log.length)) w w') :
    Tiled w' ∧ Grows w w' ∧ w'.ranges = w.ranges ++ [rangeOf new w.log.length] := by
  have hranges : w'.ranges = w.ranges ++ [rangeOf new w.log.length] := by
    rw [hu.ranges, upsert_new hnew]
  have hrows : ∀ name, w'.rowsOf name = w.rowsOf name := fun name => by
    rw [World.rowsOf, hu.files, World.rowsOf]
  have hheads : ∀ name, w'.headOf name = w.headOf name := fun name => by
    rw [World.headOf, hu.files, World.headOf]
  have hempty : w.rowsOf new = [] := by rw [World.rowsOf, hfile]; rfl
  have hnewest : w.headOf new = some (w.log.length : Int) := by rw [World.headOf, hfile]; rfl
  -- what is asked of each range: of the old ones as before, and of the new one
  have hall : ∀ {P : EventFileRange → Prop}, (∀ r ∈ w.ranges, P r) → P (rangeOf new w.log.length) →
      ∀ r ∈ w'.ranges, P r := by
    intro P h hP r hr
    rw [hranges] at hr
    rcases List.mem_append.1 hr with hr | hr
    · exact h r hr
    · rw [List.mem_singleton.1 hr]
      exact hP
  refine ⟨{ toLedger := ht.toLedger.sameFiles hu.toSameFiles, storable := ?_, nodup := ?_,
            path := hall ht.path rfl,
            tables := hall ?_ ?_, covered := ?_, blocks := hall ?_ ?_, order := ?_, newest := ?_ },
    ?_, hranges⟩
  · rw [hu.log]; exact ht.storable
  · rw [hranges, List.map_append, List.nodup_append]
    refine ⟨ht.nodup, by simp, fun n hn n' hn' => ?_⟩
    obtain ⟨r, hr, rfl⟩ := List.mem_map.1 hn
    obtain rfl : n' = new := by simpa [rangeOf] using hn'
    exact hnew r hr
  · rw [hu.files]; exact ht.tables
  · rw [hu.files]; exact ⟨_, hfile, rfl⟩
  · rw [hu.log]
    refine List.Perm.trans (List.Perm.of_eq ?_) ht.covered
    rw [hranges]
    simp [hrows, hempty, rangeOf]
  · simpa only [hrows, hheads] using ht.blocks
  · exact ⟨_, by rw [hheads]; exact hnewest, .inl ⟨by rw [hrows]; exact hempty, rfl⟩⟩
  · rw [hranges, List.pairwise_append]
    simp only [hrows]
    refine ⟨ht.order, List.pairwise_singleton _ _, fun r hr r' hr' => ?_⟩
    rw [List.mem_singleton.1 hr']
    obtain ⟨head, hh, hb⟩ := ht.blocks r hr
    have hle : ∀ row ∈ w.rowsOf r.name, row.version < (rangeOf new w.log.length).firstVersion := by
      intro row hrow
      have := ht.version_le (World.rowsOf_subset hrow)
      show row.version < w.log.length + 1
      omega
    -- all events are below the new range, so its order with `r` is a matter of where `r` begins
    refine ⟨?_, hle⟩
    rcases hb with ⟨-, hfirst⟩ | ⟨⟨lo, hlo, hlov⟩, -, -⟩
    · -- an empty file starts no later than the newest one, which starts above no more than all events
      obtain ⟨init, rn, hinit, hnh, -, -⟩ := ht.newest
      have hfirstle : r.firstVersion ≤ rn.firstVersion := by
        rw [hinit] at hr
        rcases List.mem_append.1 hr with hr | hr
        · have horder := ht.order
          rw [hinit, List.pairwise_append] at horder
          exact (horder.2.2 r hr rn (by simp)).1
        · rw [List.mem_singleton.1 hr]
      obtain ⟨hn, hhn, hbn⟩ := ht.blocks rn (by rw [hinit]; simp)
      obtain rfl : hn = w.log.length := Option.some.inj (hhn.symm.trans hnh)
      exact hfirstle.trans hbn.first_le
    · rw [← hlov]
      exact (hle lo hlo).le
  · obtain ⟨init, r, hinit, -, -, hupper⟩ := ht.newest
    refine ⟨w.ranges, _, hranges, ?_, ?_, ?_⟩
    · rw [hheads, hu.log]; exact hnewest
    · intro l hl
      cases hl
    · simp only [hrows]
      intro r' hr'
      rw [hinit] at hr'
      rcases List.mem_append.1 hr' with hr' | hr'
      · exact hupper r' hr'
      · rw [List.mem_singleton.1 hr']
        exact hlast init r hinit
  · refine ⟨⟨[], by rw [hu.log, List.append_nil]⟩, ?_, ?_⟩
    · intro r hr
      rw [hranges, List.dropLast_concat]
      exact ⟨List.dropLast_subset _ hr, hrows _⟩
    · intro r hr
      refine ⟨0, by simp [hrows], .inl ⟨r, ?_, rfl⟩⟩
      rw [hranges, List.dropLast_concat]
      exact List.mem_of_getLast? hr

/-- A batch committed to the newest file. -/
theorem appended (ht : Tiled w) {name : Text} {d d' : Db} {ids : Nat → Uuid} {span : SpanContext}
    {expected : ExpectedVersion} {events : List NewEvent} {baseTime : OffsetDateTime}
    {result : AppendResult} (hname : Newest w name) (hd : w.files.lookup name = some d)
    (hbase : OffsetDateTime.fromUnixTimestampNanos (baseTime.unixTimestampMs * 1000000) =
      some baseTime)
    (hc : AppendCommitted ids span expected events baseTime d d' w.log.length result)
    (hw' : w' = { w.setDb (.eventFile name) d' with log := w.log ++ result.events }) :
    Tiled w' ∧ Grows w w' := by
  obtain ⟨init, r, hinit, rfl⟩ := hname
  obtain ⟨baseSequence, hevents⟩ := hc.events_eq
  obtain ⟨id, hdb⟩ := hc.db_eq
  have hlen : result.events.length = events.length := by rw [hevents, length_envelopesFrom]
  have hlog : w'.log = w.log ++ result.events := by rw [hw']
  have hranges : w'.ranges = w.ranges := by rw [hw']; rfl
  have hr : r ∈ w.ranges := by rw [hinit]; simp
  have hne : ∀ r' ∈ init, r'.name ≠ r.name := by
    intro r' hr'
    have := ht.nodup
    rw [hinit, List.map_append, List.nodup_append] at this
    exact this.2.2 _ (List.mem_map_of_mem hr') _ (by simp)
  have hother : ∀ r' ∈ init, w'.files.lookup r'.name = w.files.lookup r'.name := by
    intro r' hr'
    rw [hw']
    exact World.lookup_setDb_ne (hne r' hr')
  have hself : w'.files.lookup r.name = some d' := by rw [hw']; exact World.lookup_setDb
  have hrows : ∀ r' ∈ init, w'.rowsOf r'.name = w.rowsOf r'.name := fun r' hr' => by
    rw [World.rowsOf, hother r' hr', World.rowsOf]
  have hmore : w'.rowsOf r.name = w.rowsOf r.name ++ result.events.map EventEnvelope.toRow := by
    rw [World.rowsOf, hself, World.rowsOf, hd, hdb]
    rfl
  have hversions : (result.events.map EventEnvelope.toRow).map EventRow.version =
      versionsFrom w.log.length events.length := by
    have := @version_envelopesFrom ids span baseTime baseSequence w.log.length 0 events
    rw [← hevents, Nat.cast_zero, add_zero] at this
    rw [List.map_map]
    exact this
  -- a range is an old one, or the newest
  have hcases : ∀ {P : EventFileRange → Prop}, (∀ r' ∈ init, P r') → P r → ∀ r' ∈ w'.ranges, P r' := by
    intro P h hP r' hr'
    rw [hranges, hinit] at hr'
    rcases List.mem_append.1 hr' with hr' | hr'
    · exact h r' hr'
    · rw [List.mem_singleton.1 hr']
      exact hP
  have hsub : ∀ r' ∈ init, r' ∈ w.ranges := fun r' hr' => by
    rw [hinit]
    exact List.mem_append_left _ hr'
  obtain ⟨head, hhead, hblock⟩ := ht.blocks r hr
  obtain rfl : head = w.log.length :=
    Option.some.inj (hhead.symm.trans (ht.newest_head ⟨init, r, hinit, rfl⟩))
  refine ⟨{ toLedger := by rw [hw']; exact ht.toLedger.committed hd hc
            storable := ?_, nodup := by rw [hranges]; exact ht.nodup
            path := by rw [hranges]; exact ht.path
            tables := hcases (fun r' hr' => ?_) ⟨d', hself, by rw [hdb]; rfl⟩
            covered := ?_, blocks := hcases (fun r' hr' => ?_) ?_, order := ?_, newest := ?_ }, ?_⟩
  · intro e he
    rw [hlog] at he
    rcases List.mem_append.1 he with he | he
    · exact ht.storable e he
    · have hver : e.version.get ∈ versionsFrom w.log.length events.length := by
        rw [← hversions, List.map_map]
        exact List.mem_map_of_mem he
      rw [hevents] at he
      refine ⟨?_, by rw [createdAt_envelopesFrom he]; exact hbase⟩
      have := mem_versionsFrom.1 hver
      omega
  · rw [hother r' hr']
    exact ht.tables r' (hsub r' hr')
  · have hold : (init.flatMap fun r => w'.rowsOf r.name) = init.flatMap fun r => w.rowsOf r.name :=
      List.flatMap_congr hrows
    have hcov := ht.covered
    rw [hinit, List.flatMap_append, List.flatMap_singleton] at hcov
    rw [hranges, hinit, List.flatMap_append, List.flatMap_singleton, hold, hmore,
      ← List.append_assoc, hlog, List.map_append]
    exact hcov.append_right _
  · rw [World.headOf, hother r' hr', hrows r' hr']
    exact ht.blocks r' (hsub r' hr')
  · refine ⟨w.log.length + events.length, ?_, ?_⟩
    · rw [World.headOf, hself, hdb]
      rfl
    · rw [hmore]
      exact hblock.append hversions fun h => hc.nonempty (List.length_eq_zero_iff.1 h)
  · have horder := ht.order
    rw [hinit, List.pairwise_append] at horder
    rw [hranges, hinit, List.pairwise_append]
    refine ⟨horder.1.imp_of_mem fun {r₁ r₂} h₁ _ h => by rw [hrows r₁ h₁]; exact h,
      List.pairwise_singleton _ _, fun r₁ h₁ r₂ h₂ => ?_⟩
    rw [hrows r₁ h₁]
    exact horder.2.2 r₁ h₁ r₂ h₂
  · obtain ⟨init', r', hinit', -, hlast, hupper⟩ := ht.newest
    obtain ⟨rfl, hrr⟩ := List.append_inj' (hinit.symm.trans hinit') rfl
    obtain rfl := List.singleton_inj.1 hrr
    refine ⟨init, r, by rw [hranges, hinit], ?_, hlast, fun r' hr' => ?_⟩
    · rw [World.headOf, hself, hdb, hlog, List.length_append, hlen]
      show some _ = some _
      push_cast
      rfl
    · rw [hrows r' hr']
      exact hupper r' hr'
  · refine ⟨by rw [hlog]; exact List.prefix_append _ _, fun r' hr' => ?_, fun r' hr' => ?_⟩
    · rw [hinit, List.dropLast_concat] at hr'
      rw [hranges, hinit, List.dropLast_concat]
      exact ⟨hr', hrows r' hr'⟩
    · rw [hinit, List.getLast?_concat, Option.some.injEq] at hr'
      subst hr'
      refine ⟨events.length, ?_, .inr ⟨r, by rw [hranges, hinit, List.getLast?_concat], rfl, ?_⟩⟩
      · rw [hmore, hlog, List.drop_left, ← hlen, List.take_length]
      · rw [hlog, List.length_append, hlen]

/-- While a rotation prepares the new file, the newest range is sealed. -/
theorem rotating (ht : Tiled w) {init : List EventFileRange} {r : EventFileRange} {new : Text}
    (hinit : w.ranges = init ++ [r]) (hnone : w.files.lookup new = none)
    (hw : Rotating r.name w.log.length new w w') :
    Tiled w' ∧ Grows w w' ∧ w'.ranges = init ++ [r.sealAt w.log.length] ∧ w'.log = w.log ∧
      w'.handles = w.handles := by
  obtain ⟨w₁, hu, hb⟩ := hw
  obtain ⟨ht₁, hgrows, hranges⟩ := ht.sealed hinit hu
  have hcat : w'.ranges = w₁.ranges := by rw [World.ranges, hb.catalog]; rfl
  refine ⟨ht₁.of_same (ht₁.toLedger.building hb) hb.log hcat fun r' hr' => hb.others _ ?_,
    hgrows.trans (.of_same hb.log hcat hb.rowsOf), hcat.trans hranges, hb.log.trans hu.log,
    hb.handles.trans hu.handles⟩
  rintro rfl
  obtain ⟨d, hd, -⟩ := ht₁.tables r' hr'
  rw [hu.files, hnone] at hd
  cases hd

end Tiled

/-! ## Rotations and appends -/

/-- The file that a rotation would go to does not exist yet. -/
def FreshTarget (rotation : RotationPolicy) (nowMs : Int) (w : World Unit) : Prop :=
  ∀ p a name startMs ordinal, w.handles () = some (p, a) →
    determineNewPartitionInfo rotation a.startMs a.ordinal nowMs = .ok (name, startMs, ordinal) →
    w.files.lookup name = none

/-- A rotation at `nowMs` has made the new file `new` active. -/
structure Turned (rotation : RotationPolicy) (nowMs : Int) (new : ActivePartition)
    (w w' : World Unit) : Prop where
  target : ∃ p a, w.handles () = some (p, a) ∧ w'.handles () = some (p, new) ∧
    determineNewPartitionInfo rotation a.startMs a.ordinal nowMs =
      .ok (new.name, new.startMs, new.ordinal)
  ranges : ∃ init r, w.ranges = init ++ [r] ∧
    w'.ranges = init ++ [r.sealAt w.log.length] ++ [rangeOf new.name w.log.length]
  log : w'.log = w.log
  file : w'.files.lookup new.name = some (freshFile w.log.length)
  others : ∀ other, other ≠ new.name → w'.files.lookup other = w.files.lookup other

theorem Turned.openNewest {rotation : RotationPolicy} {nowMs : Int} {new : ActivePartition}
    (h : Turned rotation nowMs new w w') (ho : OpenNewest w) : OpenNewest w' := by
  obtain ⟨init, r, hinit, hranges⟩ := h.ranges
  obtain ⟨init', r', hinit', hsealed, -⟩ := ho
  obtain ⟨rfl, -⟩ := List.append_inj' (hinit.symm.trans hinit') rfl
  refine ⟨_, _, hranges, fun r'' hr'' => ?_, rfl, rfl⟩
  rcases List.mem_append.1 hr'' with hr'' | hr''
  · exact hsealed r'' hr''
  · rw [List.mem_singleton.1 hr'']
    rfl

theorem SealedKept.of_same (hranges : w'.ranges = w.ranges)
    (hrows : ∀ name, w'.rowsOf name = w.rowsOf name) : SealedKept w w' := fun r hr _ =>
  ⟨by rw [hranges]; exact hr, hrows _⟩

/-- **A rotation to a new file keeps the tiles**, whatever fails on the way; if nothing fails, it
makes the new file active or does nothing. -/
theorem wp_rotate_tiled {C : Contract (storeMachine ())} {rotation : RotationPolicy} {nowMs : Int}
    (ht : Tiled w) (hw : WritesNewest w) (hfresh : FreshTarget rotation nowMs w)
    (hG : ∀ o w₁ w₂, o.isAppend = false → Tiled w₁ → Tiled w₂ → Grows w₁ w₂ →
      (OpenNewest w → SealedKept w₁ w₂) → C.guarantee o w₁ w₂) :
    wp C (rotatePartitionLocked rotation nowMs) (fun _ w' => Tiled w' ∧ WritesNewest w' ∧
      (Calm C → w' = w ∨ ∃ new, Turned rotation nowMs new w w')) w := by
  have hstay : ∀ o : StoreOp, o.isAppend = false → C.guarantee o w w := fun o ho =>
    hG o w w ho ht ht (.refl w) fun _ => .refl w
  refine wp_rotatePartitionLocked (fun o ho => hstay o (isAppend_of_isPassive ho))
    (fun e => ⟨ht, hw, fun _ => .inl rfl⟩) fun p a new head ha hnew hhead => ?_
  have hnone := hfresh p a _ _ _ ha hnew
  obtain ⟨init, r, hinit, hname⟩ := hw p a ha
  obtain rfl : head = w.log.length :=
    Option.some.inj (hhead.symm.trans (ht.newest_head ⟨init, r, hinit, hname⟩))
  rw [← hname]
  have hrot := fun {w'} (hw' : Rotating r.name w.log.length new.name w w') =>
    ht.rotating hinit hnone hw'
  -- the range of the new file comes behind the sealed one
  have hlisted : ∀ w₁ w₂, Prepared r.name w.log.length new.name w w₁ →
      RangesUpdated (Stmt.upsert (rangeOf new.name w.log.length)) w₁ w₂ →
      Tiled w₂ ∧ Grows w₁ w₂ ∧
        w₂.ranges = init ++ [r.sealAt w.log.length] ++ [rangeOf new.name w.log.length] := by
    rintro w₁ w₂ ⟨hw₁, -, hfile⟩ hu
    obtain ⟨ht₁, -, hranges, hlog, -⟩ := hrot hw₁
    rw [← hlog] at hu hranges hfile ⊢
    rw [← hranges]
    refine ht₁.listed ?_ (hfile hnone) ?_ hu
    · intro r' hr' hname'
      have hr₀ : ∃ r₀ ∈ w.ranges, r₀.name = r'.name := by
        rw [hranges] at hr'
        rw [hinit]
        rcases List.mem_append.1 hr' with hr' | hr'
        · exact ⟨r', List.mem_append_left _ hr', rfl⟩
        · rw [List.mem_singleton.1 hr']
          exact ⟨r, by simp, rfl⟩
      obtain ⟨r₀, hr₀, hsame⟩ := hr₀
      obtain ⟨d, hd, -⟩ := ht.tables r₀ hr₀
      rw [hsame, hname', hnone] at hd
      cases hd
    · intro init' r' hinit' l hl row hrow
      obtain ⟨-, hr'⟩ := List.append_inj' (hranges.symm.trans hinit') rfl
      obtain rfl := List.singleton_inj.1 hr'
      obtain rfl : (w₁.log.length : Int) = l := by simpa [EventFileRange.sealAt] using hl
      exact ht₁.version_le (World.rowsOf_subset hrow)
  refine wp_rotateTo (fun o ho => hstay o (isAppend_of_onCatalog ho)) ?_ ?_ ?_ ?_
    (fun _ _ => ⟨ht, hw, fun _ => .inl rfl⟩) ?_
  · -- sealing
    intro w₁ hu
    obtain ⟨ht₁, hgrows, hranges⟩ := ht.sealed hinit hu
    refine hG _ _ _ rfl ht ht₁ hgrows fun ho r' hr' hsealed => ?_
    obtain ⟨init', r'', hinit', -, hopen, -⟩ := ho
    obtain ⟨-, hr''⟩ := List.append_inj' (hinit.symm.trans hinit') rfl
    obtain rfl := List.singleton_inj.1 hr''
    rw [hinit] at hr'
    rcases List.mem_append.1 hr' with hr' | hr'
    · exact ⟨by rw [hranges]; exact List.mem_append_left _ hr', by rw [World.rowsOf, hu.files]; rfl⟩
    · rw [List.mem_singleton.1 hr', hopen] at hsealed
      cases hsealed
  · -- preparing the file
    intro o w₁ w₂ ho hw₁ hw₂
    obtain ⟨ht₁, -, hranges₁, hlog₁, -⟩ := hrot hw₁
    obtain ⟨ht₂, -, hranges₂, hlog₂, -⟩ := hrot hw₂
    have hrows : ∀ name, w₂.rowsOf name = w₁.rowsOf name := by
      obtain ⟨v₁, hu₁, hb₁⟩ := hw₁
      obtain ⟨v₂, hu₂, hb₂⟩ := hw₂
      intro name
      rw [hb₁.rowsOf, hb₂.rowsOf, World.rowsOf, World.rowsOf, hu₁.files, hu₂.files]
    have hranges : w₂.ranges = w₁.ranges := hranges₂.trans hranges₁.symm
    have hnot : o.isAppend = false := by
      rcases ho with ho | ⟨ho, -⟩
      · exact isAppend_of_prepares ho
      · exact isAppend_of_onCatalog ho
    exact hG o w₁ w₂ hnot ht₁ ht₂ (.of_same (hlog₂.trans hlog₁.symm) hranges hrows)
      fun _ => .of_same hranges hrows
  · -- listing it
    intro w₁ w₂ hw₁ hu
    obtain ⟨ht₂, hgrows, hranges⟩ := hlisted w₁ w₂ hw₁ hu
    obtain ⟨ht₁, -, hranges₁, -⟩ := hrot hw₁.1
    refine hG _ _ _ rfl ht₁ ht₂ hgrows fun _ r' hr' _ => ⟨?_, by rw [World.rowsOf, hu.files]; rfl⟩
    rw [hranges, ← hranges₁]
    exact List.mem_append_left _ hr'
  · -- writing to it
    intro w₂ hw₂
    obtain ⟨w₁, hw₁, hu⟩ := hw₂
    obtain ⟨ht₂, -, hranges⟩ := hlisted w₁ w₂ hw₁ hu
    obtain ⟨-, -, -, hlog, hhandles⟩ := hrot hw₁.1
    have hactive : (w₂.activate () new).handles () = some (p, new) := by
      simp [World.activate, hu.handles, hhandles, ha]
    have ht₃ : Tiled (w₂.activate () new) :=
      ht₂.of_same (ht₂.toLedger.of_rows (List.Perm.refl _) rfl) rfl rfl fun _ _ => rfl
    refine ⟨hG _ _ _ rfl ht₂ ht₃ (.of_same rfl rfl fun _ => rfl) fun _ =>
      .of_same rfl fun _ => rfl, ht₃, fun p' a' ha' => ?_, fun _ => .inr ⟨new, ?_⟩⟩
    · obtain ⟨rfl, rfl⟩ : p = p' ∧ new = a' := by simpa [hactive] using ha'
      exact ⟨_, _, hranges, rfl⟩
    · refine ⟨⟨p, a, ha, hactive, hnew⟩, ⟨init, r, hinit, hranges⟩, hu.log.trans hlog, ?_, ?_⟩
      · show w₂.files.lookup new.name = _
        rw [hu.files]
        exact hw₁.2.2 hnone
      · intro other hother
        obtain ⟨w₀, hseal, hb⟩ := hw₁.1
        show w₂.files.lookup other = _
        rw [hu.files, hb.others other hother, hseal.files]
  · intro err w₁ hw₁ hwhy
    obtain ⟨ht₁, -, hranges, -, hhandles⟩ := hrot hw₁
    refine ⟨ht₁, fun p' a' ha' => ?_, fun hC => ?_⟩
    · rw [hhandles, ha] at ha'
      obtain ⟨rfl, rfl⟩ : p = p' ∧ a = a' := by simpa using ha'
      exact ⟨_, _, hranges, hname⟩
    · rcases hwhy with hwhy | hwhy
      · exact absurd hC hwhy
      · exact absurd hnone hwhy

/-- **An append keeps the tiles**, whatever becomes of it. -/
theorem Tiled.appendStep {p : RotationPolicy} {a : ActivePartition} {expected : ExpectedVersion}
    {events : List NewEvent} {baseTime : OffsetDateTime} {e : StoreEnv}
    {res : Except EsError AppendResult} (ht : Tiled w) (hw : WritesNewest w)
    (ha : w.handles () = some (p, a))
    (hbase : OffsetDateTime.fromUnixTimestampNanos (baseTime.unixTimestampMs * 1000000) =
      some baseTime)
    (hstep : AppendStep a.name expected events baseTime e w res w') :
    Tiled w' ∧ Grows w w' ∧ w'.handles = w.handles ∧ w'.ranges = w.ranges ∧
      (∀ other, (w'.files.lookup other).isSome → (w.files.lookup other).isSome) ∧
      ∀ other, other ≠ a.name → w'.files.lookup other = w.files.lookup other := by
  cases hstep with
  | @committed d d' head result hd hc =>
    obtain rfl : head = w.log.length := by
      have hhead : w.headOf a.name = some head := by rw [World.headOf, hd]; exact hc.head_eq
      exact Option.some.inj (hhead.symm.trans (ht.newest_head (hw p a ha)))
    obtain ⟨ht', hgrows⟩ := ht.appended (hw p a ha) hd hbase hc rfl
    refine ⟨ht', hgrows, rfl, rfl, fun other hother => ?_, fun other hother =>
      World.lookup_setDb_ne hother⟩
    by_cases hn : other = a.name
    · rw [hn, hd]
      rfl
    · have hsame : (w.setDb (.eventFile a.name) d').files.lookup other = w.files.lookup other :=
        World.lookup_setDb_ne hn
      rw [← hsame]
      exact hother
  | refused hb hfiles =>
    have hb := hb 0
    have hranges : w'.ranges = w.ranges := by rw [World.ranges, hb.catalog]; rfl
    exact ⟨ht.of_same (ht.toLedger.building hb) hb.log hranges fun r' _ => hfiles r'.name,
      .of_same hb.log hranges hb.rowsOf, hb.handles, hranges, fun other h => by rwa [hfiles] at h,
      fun other _ => hfiles other⟩

/-- The file of a sealed range is not the newest one. -/
theorem SealedKept.of_append (ht : Tiled w) (ho : OpenNewest w) {name : Text} (hn : Newest w name)
    (hranges : w'.ranges = w.ranges)
    (hfiles : ∀ other, other ≠ name → w'.files.lookup other = w.files.lookup other) :
    SealedKept w w' := by
  intro r hr hsealed
  obtain ⟨init, r', hinit, -, hopen, -⟩ := ho
  obtain ⟨init', r'', hinit', rfl⟩ := hn
  obtain ⟨rfl, hr''⟩ := List.append_inj' (hinit.symm.trans hinit') rfl
  obtain rfl := List.singleton_inj.1 hr''
  have hne : r.name ≠ r'.name := by
    rw [hinit] at hr
    rcases List.mem_append.1 hr with hr | hr
    · have := ht.nodup
      rw [hinit, List.map_append, List.nodup_append] at this
      exact this.2.2 _ (List.mem_map_of_mem hr) _ (by simp)
    · rw [List.mem_singleton.1 hr, hopen] at hsealed
      cases hsealed
  exact ⟨by rw [hranges]; exact hr, by rw [World.rowsOf, hfiles _ hne]; rfl⟩

end Tiled

/-! ## The first open -/

section FirstOpen

variable {rotation : RotationPolicy} {t : OffsetDateTime} {a : ActivePartition} {w : World Unit}

theorem FirstOpen.tiled (h : FirstOpen rotation t a w) : Tiled w := by
  have hhead : w.headOf a.name = some 0 := by rw [World.headOf, h.file]; rfl
  have hrows : w.rowsOf a.name = [] := by rw [World.rowsOf, h.file]; rfl
  have hmem : ∀ r ∈ w.ranges, r = rangeOf a.name 0 := by
    rw [h.ranges]
    exact fun r hr => List.mem_singleton.1 hr
  refine { toLedger := h.versionInv.toLedger, storable := ?_, nodup := ?_, path := ?_, tables := ?_,
           covered := ?_, blocks := ?_, order := ?_, newest := ?_ }
  · rw [h.log]
    exact fun e he => by cases he
  · rw [h.ranges]
    exact List.nodup_singleton _
  · intro r hr
    rw [hmem r hr]
    rfl
  · intro r hr
    rw [hmem r hr]
    exact ⟨_, h.file, rfl⟩
  · rw [h.ranges, h.log, List.flatMap_singleton]
    exact List.Perm.of_eq hrows
  · intro r hr
    rw [hmem r hr]
    exact ⟨0, hhead, .inl ⟨hrows, rfl⟩⟩
  · rw [h.ranges]
    exact List.pairwise_singleton _ _
  · refine ⟨[], _, h.ranges, ?_, fun l hl => (by cases hl), fun r' hr' => by cases hr'⟩
    rw [h.log]
    exact hhead

theorem FirstOpen.writesNewest (h : FirstOpen rotation t a w) : WritesNewest w := by
  intro p a' ha'
  obtain ⟨-, rfl⟩ : rotation = p ∧ a = a' := by simpa [h.handle] using ha'
  exact ⟨[], _, h.ranges, rfl⟩

theorem FirstOpen.openNewest (h : FirstOpen rotation t a w) : OpenNewest w :=
  ⟨[], _, h.ranges, fun r hr => by (cases hr), rfl, rfl⟩

end FirstOpen

end Events
