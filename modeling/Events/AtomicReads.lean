import Events.CursorReads
import Events.Lib.Readers

/-!
# Reads of one moment

A read asks the catalog and then one file after the other, without a lock, while others append and
rotate. Its answer is nevertheless that of a single moment between its call and its answer: the same
page of the stream that it would have got, had nobody written meanwhile. This holds of
`load_after_version`, of `load_workflow_after_version` and of `current_version`, as long as nothing is
appended to a file whose range a failed rotation has left sealed.

* **`Covering`** — the newest range leaves no event out; `snapshotDiscipline` keeps it.
* **`Since`** — how the store gets from one moment of a run to a later one.
* **`Ahead`** — what the rest of a read will give, from the moment at which it was settled.
* **`reads_atomic`** — the result on runs.
-/

namespace Events

open Proc Program Discipline

/-! ## The newest range -/

/-- The newest range leaves out no event, and the file that the handle writes to is listed and its head
is the number of events. -/
structure Covering (w : World Unit) : Prop where
  bound : ∀ r last, w.ranges.getLast? = some r → r.lastVersion = some last →
    (w.log.length : Int) ≤ last
  active : ∀ p a, w.handles () = some (p, a) →
    w.headOf a.name = some (w.log.length : Int) ∧ ∃ r ∈ w.ranges, r.name = a.name

/-- The heads of the listed files are as they were. -/
def HeadsKept (w w' : World Unit) : Prop :=
  ∀ r ∈ w.ranges, w'.headOf r.name = w.headOf r.name

/-- What a step may do: the tiles grow, the events and the ranges do not change both, and the head of
a listed file stays or comes to be the number of events. -/
structure Moves (w w' : World Unit) : Prop extends Grows w w' where
  still : w'.log = w.log ∨ w'.ranges = w.ranges
  heads : ∀ r ∈ w.ranges, w'.headOf r.name = w.headOf r.name ∨
    w'.headOf r.name = some (w'.log.length : Int)

/-- An append goes to a file whose range is not bounded. -/
def ToOpenRange (w : World Unit) : StoreOp → Prop
  | .appendTransaction name _ _ _ => ∀ r ∈ w.ranges, r.name = name → r.lastVersion = none
  | _ => True

section Steps

variable {w w' : World Unit} {o : StoreOp} {e : StoreEnv}

theorem Moves.refl (w : World Unit) : Moves w w where
  toGrows := .refl w
  still := .inl rfl
  heads _ _ := .inl rfl

/-- The calls on one stream whose appends go to open ranges and whose rotations go to new files. -/
def snapshotDiscipline [SerdeJson] : Discipline (eventStreams Unit) CallStatus where
  allow o _ w := ToOpenRange w o
  allowWrite := FreshNote
  restarts := .never
  inv w := Intact w ∧ Covering w
  always w := Tiled w ∧ w.handles () ≠ none ∧ Covering w
  guarantee _ _ := Moves
  ghost₀ := CallStatus.ofCall
  ghost o x status := status.after o x

theorem reads_snapshotDiscipline [SerdeJson] : Reads snapshotDiscipline fun _ => True where
  quiet _ ho x status := CallStatus.after_of_not_append ho x status
  refl _ _ w _ _ := Moves.refl w
  clock _ _ _ := trivial

/-- The last range of a list that ends in it. -/
theorem getLast?_of_eq {init : List EventFileRange} {r r' : EventFileRange}
    (hinit : w.ranges = init ++ [r]) (hr' : w.ranges.getLast? = some r') : r = r' := by
  rw [hinit, List.getLast?_concat] at hr'
  exact Option.some.inj hr'

/-- **A rotation to a new file** leaves no event out at any of its steps, whatever fails. -/
theorem wp_rotate_covering {C : Contract (storeMachine ())} {rotation : RotationPolicy} {nowMs : Int}
    (ht : Tiled w) (hw : WritesNewest w) (hc : Covering w) (hfresh : FreshTarget rotation nowMs w)
    (hG : ∀ o w₁ w₂, Covering w₂ → HeadsKept w₁ w₂ → C.guarantee o w₁ w₂) :
    wp C (rotatePartitionLocked rotation nowMs) (fun _ w' => Covering w') w := by
  have hstay : ∀ o : StoreOp, C.guarantee o w w := fun o => hG o w w hc fun _ _ => rfl
  refine wp_rotatePartitionLocked (fun o _ => hstay o) (fun e => hc) fun p a new head ha hnew hhead => ?_
  have hnone := hfresh p a _ _ _ ha hnew
  obtain ⟨init, r, hinit, hname⟩ := hw p a ha
  obtain rfl : head = w.log.length :=
    Option.some.inj (hhead.symm.trans (ht.newest_head ⟨init, r, hinit, hname⟩))
  rw [← hname]
  have hrot := fun {w'} (hw' : Rotating r.name w.log.length new.name w w') =>
    ht.rotating hinit hnone hw'
  -- the listed files are not the one that is prepared
  have hother : ∀ x ∈ init ++ [r.sealAt w.log.length], x.name ≠ new.name := by
    intro x hx hxname
    have hlisted : ∃ x' ∈ w.ranges, x'.name = x.name := by
      rw [hinit]
      rcases List.mem_append.1 hx with hx | hx
      · exact ⟨x, List.mem_append_left _ hx, rfl⟩
      · rw [List.mem_singleton.1 hx]
        exact ⟨r, by simp, rfl⟩
    obtain ⟨x', hx', hsame⟩ := hlisted
    obtain ⟨d, hd, -⟩ := ht.tables x' hx'
    rw [hsame, hxname, hnone] at hd
    cases hd
  -- sealed at the number of events, the newest range leaves none out
  have hrotating : ∀ w', Rotating r.name w.log.length new.name w w' → Covering w' := by
    intro w' hw'
    obtain ⟨ht', -, hranges, hlog, hhandles⟩ := hrot hw'
    refine ⟨fun x last hx hlast => ?_, fun p' a' ha' => ?_⟩
    · obtain rfl := getLast?_of_eq hranges hx
      obtain rfl : (w.log.length : Int) = last := by simpa [EventFileRange.sealAt] using hlast
      rw [hlog]
    · rw [hhandles, ha] at ha'
      obtain ⟨rfl, rfl⟩ : p = p' ∧ a = a' := by simpa using ha'
      refine ⟨ht'.newest_head ⟨init, _, hranges, hname⟩, r.sealAt w.log.length, ?_, hname⟩
      rw [hranges]
      exact List.mem_append_right _ (List.mem_singleton_self _)
  -- the head of a listed file is not touched on the way
  have hheads : ∀ w', Rotating r.name w.log.length new.name w w' →
      ∀ x ∈ init ++ [r.sealAt w.log.length], w'.headOf x.name = w.headOf x.name := by
    rintro w' ⟨w₁, hu, hb⟩ x hx
    rw [hb.headOf_ne (hother x hx), World.headOf, World.headOf, hu.files]
  -- the range of the new file comes last and is open, so no bound is asked of it
  have hlisted : ∀ w₁ w₂, Prepared r.name w.log.length new.name w w₁ →
      RangesUpdated (Stmt.upsert (rangeOf new.name w.log.length)) w₁ w₂ → Covering w₂ ∧
        w₂.ranges = init ++ [r.sealAt w.log.length] ++ [rangeOf new.name w.log.length] := by
    rintro w₁ w₂ ⟨hw₁, -, -⟩ hu
    obtain ⟨-, -, hranges, -, -⟩ := hrot hw₁
    have hranges₂ : w₂.ranges = w₁.ranges ++ [rangeOf new.name w.log.length] := by
      rw [hu.ranges, upsert_new (by rw [hranges]; exact hother)]
    refine ⟨⟨fun x last hx hlast => ?_, fun p' a' ha' => ?_⟩, by rw [hranges₂, hranges]⟩
    · obtain rfl := getLast?_of_eq hranges₂ hx
      cases hlast
    · rw [hu.handles] at ha'
      obtain ⟨hhead', x, hx, hxname⟩ := (hrotating w₁ hw₁).active p' a' ha'
      refine ⟨?_, x, by rw [hranges₂]; exact List.mem_append_left _ hx, hxname⟩
      rw [World.headOf, hu.files, hu.log]
      exact hhead'
  refine wp_rotateTo (fun o _ => hstay o) ?_ ?_ ?_ ?_ (fun _ _ => hc) fun _ w₁ hw₁ _ => hrotating w₁ hw₁
  · -- sealing
    intro w₁ hu
    refine hG _ _ _ (hrotating w₁ ⟨w₁, hu, .refl _ _ _⟩) fun x _ => ?_
    rw [World.headOf, hu.files, World.headOf]
  · -- preparing the file
    intro o w₁ w₂ _ hw₁ hw₂
    refine hG o w₁ w₂ (hrotating w₂ hw₂) fun x hx => ?_
    rw [(hrot hw₁).2.2.1] at hx
    rw [hheads w₁ hw₁ x hx, hheads w₂ hw₂ x hx]
  · -- listing it
    intro w₁ w₂ hw₁ hu
    refine hG _ _ _ (hlisted w₁ w₂ hw₁ hu).1 fun x _ => ?_
    rw [World.headOf, hu.files, World.headOf]
  · -- writing to it
    rintro w₂ ⟨w₁, hw₁, hu⟩
    obtain ⟨hc₂, hranges⟩ := hlisted w₁ w₂ hw₁ hu
    obtain ⟨-, -, -, hlog, hhandles⟩ := hrot hw₁.1
    have hactive : (w₂.activate () new).handles () = some (p, new) := by
      simp [World.activate, hu.handles, hhandles, ha]
    have hc₃ : Covering (w₂.activate () new) := by
      refine ⟨hc₂.bound, fun p' a' ha' => ?_⟩
      obtain ⟨rfl, rfl⟩ : p = p' ∧ new = a' := by simpa [hactive] using ha'
      refine ⟨?_, rangeOf new.name w.log.length, ?_, rfl⟩
      · show w₂.headOf new.name = some (w₂.log.length : Int)
        rw [World.headOf, hu.files, hu.log, hlog]
        exact hw₁.2.1
      · show _ ∈ w₂.ranges
        rw [hranges]
        simp
    exact ⟨hG _ _ _ hc₃ fun _ _ => rfl, hc₃⟩

/-- An append to an open range leaves no event out. -/
theorem Covering.appendStep {p : RotationPolicy} {a : ActivePartition} {expected : ExpectedVersion}
    {events : List NewEvent} {baseTime : OffsetDateTime} {r : Except EsError AppendResult}
    (hi : Intact w) (ha : w.handles () = some (p, a))
    (hwhole : OffsetDateTime.fromUnixTimestampNanos (baseTime.unixTimestampMs * 1000000) =
      some baseTime)
    (hopen : ∀ r ∈ w.ranges, r.name = a.name → r.lastVersion = none)
    (hstep : AppendStep a.name expected events baseTime e w r w') : Covering w' ∧ Moves w w' := by
  obtain ⟨ht', hgrows, hhandles, hranges, -, hothers⟩ :=
    hi.tiled.appendStep hi.writesNewest ha hwhole hstep
  have hnewest : Newest w' a.name := by
    obtain ⟨init, x, hinit, hname⟩ := hi.writesNewest p a ha
    exact ⟨init, x, by rw [hranges, hinit], hname⟩
  refine ⟨⟨fun x last hx hlast => ?_, fun p' a' ha' => ?_⟩, ⟨hgrows, .inr hranges, fun x hx => ?_⟩⟩
  · obtain ⟨init, x', hinit, hname⟩ := hnewest
    obtain rfl := getLast?_of_eq hinit hx
    rw [hopen x' (by rw [← hranges, hinit]; simp) hname] at hlast
    cases hlast
  · rw [hhandles, ha] at ha'
    obtain ⟨rfl, rfl⟩ : p = p' ∧ a = a' := by simpa using ha'
    obtain ⟨init, x, hinit, hname⟩ := id hnewest
    exact ⟨ht'.newest_head hnewest, x, by rw [hinit]; simp, hname⟩
  · by_cases hname : x.name = a.name
    · exact .inr (by rw [hname]; exact ht'.newest_head hnewest)
    · exact .inl (by rw [World.headOf, hothers _ hname, World.headOf])

/-- **The calls follow the discipline.** -/
theorem lawful_snapshotDiscipline [SerdeJson] : snapshotDiscipline.Lawful AppendPost := by
  refine reads_snapshotDiscipline.lawful_append rfl rfl (fun w hi => ⟨hi.1.tiled, hi.1.isOpen, hi.2⟩)
    (fun h => by cases h) (fun h => by cases h)
    (fun rotation w halways hnone => absurd hnone halways.2.1) ?_ ?_
  · intro rotation nowMs status w _ hi hfresh
    have htiled := wp_rotate_tiled (C := ⟨fun _ _ _ => True, fun _ w₁ w₂ => Grows w₁ w₂ ∧ Tiled w₂⟩)
      hi.1.tiled hi.1.writesNewest hfresh fun o w₁ w₂ _ _ ht₂ hgrows _ => ⟨hgrows, ht₂⟩
    have hcovering := wp_rotate_covering
      (C := ⟨fun _ _ _ => True, fun _ w₁ w₂ => Covering w₂ ∧ HeadsKept w₁ w₂⟩)
      hi.1.tiled hi.1.writesNewest hi.2 hfresh fun o w₁ w₂ hc₂ hheads => ⟨hc₂, hheads⟩
    have hframed := wp_framed (C := snapshotDiscipline.contract status)
      (J := fun w' : World Unit => w'.log = w.log ∧ w'.handles () ≠ none)
      (all_rotatePartitionLocked rotation nowMs) ⟨rfl, hi.1.isOpen⟩ (wp_both htiled hcovering)
      fun o ho e w₁ _ hJ => ?_
    · refine wp_mono hframed fun r w' hr => ?_
      obtain ⟨⟨⟨ht, hw, -⟩, hc⟩, hlog, hopen⟩ := hr
      exact ⟨⟨ht, hw, hopen, by rw [hlog]; exact hi.1.metadata⟩, hc⟩
    · have hkeep := step_keeps (e := e) ho hJ.2
      refine ⟨trivial, ⟨hkeep.1.trans hJ.1, hkeep.2⟩, fun hG => ?_⟩
      obtain ⟨⟨hgrows, ht₂⟩, hc₂, hheads⟩ := hG
      exact ⟨⟨hgrows, .inl hkeep.1, fun x hx => .inl (hheads x hx)⟩, ht₂, hkeep.2, hc₂⟩
  · intro expected events baseTime p a e r w w' hi _ ha _ hadm hstep hallow
    obtain ⟨hi', -, -⟩ := hi.1.appendStep ha hadm hstep
    obtain ⟨hc', hmoves⟩ := Covering.appendStep hi.1 ha hadm.wholeMs hallow hstep
    exact ⟨hmoves, hi', hc'⟩

end Steps

/-! ## From one moment to a later one -/

section Moments

variable {M : World Unit → Prop} {w w' w₁ w₂ w₃ : World Unit}

/-- From one moment of a run to a later one: the files of the older ranges stay as they are. The newest
one has got the events that followed up to some moment, the present one if it is still the newest; the
head of a listed file is what it was, or the number of events at some moment. -/
structure Since (M : World Unit → Prop) (w w' : World Unit) : Prop extends Grows w w' where
  moment : ∀ r, w.ranges.getLast? = some r → ∃ v, M v ∧ w.log <+: v.log ∧ v.log <+: w'.log ∧
    w'.rowsOf r.name = w.rowsOf r.name ++ (v.log.drop w.log.length).map EventEnvelope.toRow ∧
    (Settled w' r ∨ v.log = w'.log ∧ IsNewest w' r)
  heads : ∀ r ∈ w.ranges, w'.headOf r.name = w.headOf r.name ∨
    ∃ v, M v ∧ w'.headOf r.name = some (v.log.length : Int)

/-- A moment of the run at which the ranges are tiles that leave no event out. -/
structure Moment (M : World Unit → Prop) (w : World Unit) : Prop where
  tiled : Tiled w
  covering : Covering w
  here : M w

/-- A listed file stays listed. -/
theorem Grows.listed (hg : Grows w w') {r : EventFileRange} (hr : r ∈ w.ranges) :
    ∃ r' ∈ w'.ranges, r'.name = r.name := by
  rcases List.eq_nil_or_concat w.ranges with hnil | ⟨init, rn, hinit⟩
  · rw [hnil] at hr
    cases hr
  · rw [List.concat_eq_append] at hinit
    rw [hinit] at hr
    rcases List.mem_append.1 hr with hr | hr
    · have hold := (hg.old r (by rw [hinit, List.dropLast_concat]; exact hr)).1
      exact ⟨r, List.dropLast_subset _ hold, rfl⟩
    · rw [List.mem_singleton.1 hr]
      obtain ⟨j, -, hnext⟩ := hg.newest rn (by rw [hinit, List.getLast?_concat])
      rcases hnext with ⟨r', hr', hname⟩ | ⟨r', hr', hname, -⟩
      · exact ⟨r', List.dropLast_subset _ hr', hname⟩
      · exact ⟨r', List.mem_of_getLast? hr', hname⟩

theorem Since.refl (h : M w) : Since M w w where
  toGrows := .refl w
  moment r hr := ⟨w, h, List.prefix_refl _, List.prefix_refl _, by simp, .inr ⟨rfl, r, hr, rfl⟩⟩
  heads _ _ := .inl rfl

/-- One step. -/
theorem Moves.since (h : Moves w w') (ht' : Tiled w') (hM : M w') : Since M w w' where
  toGrows := h.toGrows
  moment r hr := by
    obtain ⟨j, hrows, hnext⟩ := h.newest r hr
    refine ⟨w', hM, h.log, List.prefix_refl _, ?_, hnext.imp_right fun ⟨r', hr', hname, _⟩ =>
      ⟨rfl, r', hr', hname⟩⟩
    have hall : (w'.log.drop w.log.length).take j = w'.log.drop w.log.length := by
      rcases h.still with hlog | hranges
      · rw [hlog, List.drop_length, List.take_nil]
      · -- the ranges being the same, the newest one is so still
        rcases hnext with ⟨r', hr', hname⟩ | ⟨r', hr', hname, hlen⟩
        · rw [← hranges] at hr
          obtain ⟨init, hinit⟩ := List.getLast?_eq_some_iff.1 hr
          have hnodup := ht'.nodup
          rw [hinit, List.map_append, List.nodup_append] at hnodup
          rw [hinit, List.dropLast_concat] at hr'
          exact absurd hname (hnodup.2.2 _ (List.mem_map_of_mem hr') _ (by simp))
        · exact List.take_of_length_le (by rw [List.length_drop]; omega)
    rw [hrows, hall]
  heads r hr := (h.heads r hr).imp_right fun hhead => ⟨w', hM, hhead⟩

theorem Since.trans (h : Since M w₁ w₂) (h' : Since M w₂ w₃) : Since M w₁ w₃ where
  toGrows := h.toGrows.trans h'.toGrows
  moment r hr := by
    obtain ⟨v, hv, hle, hle', hrows, hnext⟩ := h.moment r hr
    rcases hnext with ⟨r', hr', hname⟩ | ⟨hlog, r', hr', hname⟩
    · -- it had a successor already
      obtain ⟨hr'', hrows'⟩ := h'.old r' hr'
      rw [hname] at hrows'
      exact ⟨v, hv, hle, hle'.trans h'.log, hrows'.trans hrows, .inl ⟨r', hr'', hname⟩⟩
    · obtain ⟨v', hv', hlater, hlater', hrows', hnext'⟩ := h'.moment r' hr'
      have hsplit : v'.log.drop w₁.log.length =
          v.log.drop w₁.log.length ++ v'.log.drop w₂.log.length := by
        obtain ⟨more, hmore⟩ := hlater
        rw [hlog, ← hmore, List.drop_left, List.drop_append_of_le_length h.log.length_le]
      refine ⟨v', hv', h.log.trans hlater, hlater', ?_, ?_⟩
      · rw [← hname, hrows', hname, hrows, hsplit, List.map_append, List.append_assoc]
      · refine hnext'.imp (fun ⟨x, hx, hxname⟩ => ⟨x, hx, hxname.trans hname⟩) ?_
        exact fun ⟨heq, x, hx, hxname⟩ => ⟨heq, x, hx, hxname.trans hname⟩
  heads r hr := by
    obtain ⟨r', hr', hname⟩ := h.listed hr
    have hthen := h'.heads r' hr'
    rw [hname] at hthen
    rcases hthen with hsame | hnew
    · rw [hsame]
      exact h.heads r hr
    · exact .inr hnew

end Moments

/-! ## The rest of a read -/

section Ahead

variable {M : World Unit → Prop} {P : EventRow → Prop} [DecidablePred P] {w w' : World Unit}
  {events more : List EventEnvelope} {rest : List EventFileRange} {r : EventFileRange}
  {limit n : Nat}

variable (M P) in
/-- What the read has got so far and what the files that it has still to ask hold for it are what it
selects from the events of one moment, the present one while the newest file is still to be asked. -/
def Ahead (events : List EventEnvelope) (rest : List EventFileRange) (w : World Unit) : Prop :=
  ∃ v more, M v ∧ v.log <+: w.log ∧
    (rest.flatMap fun r => block P w r.name) = more.map EventEnvelope.toRow ∧
    events ++ more = v.log.filter (fun e => P e.toRow) ∧
    ((∀ r ∈ rest, Settled w r) ∨ v.log = w.log ∧
      ∃ before r behind, rest = before ++ r :: behind ∧ (∀ x ∈ before ++ behind, Settled w x) ∧
        IsNewest w r ∧ ∀ x ∈ behind, block P w x.name = [])

variable (M P) in
/-- The page of some moment. -/
def Paged (limit : Nat) (events : List EventEnvelope) : Prop :=
  ∃ v, M v ∧ events = page P v limit

/-- A file that has got the events that followed. -/
theorem block_grown (ht : Tiled w) (ht' : Tiled w') {log : List EventEnvelope} {name : Text}
    (hlog : log <+: w'.log)
    (hrows : w'.rowsOf name =
      w.rowsOf name ++ (log.drop w.log.length).map EventEnvelope.toRow) :
    block P w' name = block P w name ++
      ((log.drop w.log.length).filter fun e => P e.toRow).map EventEnvelope.toRow := by
  have hfilter : ((log.drop w.log.length).map EventEnvelope.toRow).filter P =
      ((log.drop w.log.length).filter fun e => P e.toRow).map EventEnvelope.toRow := List.filter_map
  rw [← hfilter]
  set added := (log.drop w.log.length).map EventEnvelope.toRow
  have hsub : added.Sublist ((w'.log.map EventEnvelope.toRow).filter
      (AfterCursor w.log.length)) := by
    rw [ht'.toLedger.drop_eq]
    exact (hlog.sublist.drop _).map _
  have hlater : ∀ row ∈ added, (w.log.length : Int) < row.version := fun row hrow =>
    of_decide_eq_true (p := AfterCursor w.log.length row) (List.mem_filter.1 (hsub.subset hrow)).2
  refine Tiles.eq_of_perm_of_pairwise_lt EventRow.version ?_ (ht'.toLedger.pairwise_block name) ?_
  · unfold block
    rw [hrows, List.filter_append]
    exact (List.perm_insertionSort _ _).trans
      ((List.perm_insertionSort _ _).symm.append_right _)
  · rw [List.pairwise_append]
    refine ⟨ht.toLedger.pairwise_block name, ?_, fun row hrow row' hrow' => ?_⟩
    · exact ht'.toLedger.pairwise.sublist
        (List.filter_sublist.trans (hsub.trans List.filter_sublist))
    · have hle := ht.toLedger.version_le (World.rowsOf_subset (mem_block.1 hrow).1)
      have hlt := hlater row' (List.mem_of_mem_filter hrow')
      omega

/-- A file with a successor. -/
theorem Settled.block_eq (h : Settled w r) (hg : Grows w w') :
    block P w' r.name = block P w r.name := by
  obtain ⟨r', hr', hname⟩ := h
  have hrows := (hg.old r' hr').2
  rw [hname] at hrows
  unfold block
  rw [hrows]

/-- **What is ahead** survives what the others do. -/
theorem Ahead.grow (ht : Tiled w) (ht' : Tiled w') (hs : Since M w w') (h : Ahead M P events rest w) :
    Ahead M P events rest w' := by
  obtain ⟨v, more, hv, hle, hmore, hevents, hrest⟩ := h
  have hg := hs.toGrows
  rcases hrest with hsettled | ⟨heq, before, r, behind, rfl, hsettled, ⟨rn, hrn, hname⟩, hbehind⟩
  · refine ⟨v, more, hv, hle.trans hg.log, ?_, hevents, .inl fun r hr => (hsettled r hr).grow hg⟩
    rw [← hmore]
    exact List.flatMap_congr fun r hr => (hsettled r hr).block_eq hg
  · -- the newest file has got the events that followed up to the moment `v'`
    obtain ⟨v', hv', hlater, hle', hrows, hnext⟩ := hs.moment rn hrn
    rw [hname] at hrows
    have hgrown := block_grown (P := P) ht ht' hle' hrows
    have hbehind' : ∀ x ∈ behind, block P w' x.name = [] := fun x hx => by
      rw [(hsettled x (List.mem_append_right _ hx)).block_eq hg]
      exact hbehind x hx
    have hbefore : (before.flatMap fun x => block P w' x.name) =
        before.flatMap fun x => block P w x.name :=
      List.flatMap_congr fun x hx => (hsettled x (List.mem_append_left _ hx)).block_eq hg
    have hold : ∀ x ∈ before ++ behind, Settled w' x := fun x hx => (hsettled x hx).grow hg
    rw [List.flatMap_append, List.flatMap_cons, List.flatMap_eq_nil_iff.2 hbehind,
      List.append_nil] at hmore
    refine ⟨v', more ++ (v'.log.drop w.log.length).filter fun e => P e.toRow, hv', hle', ?_, ?_, ?_⟩
    · rw [List.flatMap_append, List.flatMap_cons, List.flatMap_eq_nil_iff.2 hbehind',
        List.append_nil, hbefore, hgrown, List.map_append, ← hmore, List.append_assoc]
    · obtain ⟨since, hsince⟩ := hlater
      rw [← List.append_assoc, hevents, heq, ← hsince, List.drop_left, List.filter_append]
    · rcases hnext with ⟨r', hr', hname'⟩ | ⟨hlog, r', hr', hname'⟩
      · refine .inl fun x hx => ?_
        rcases List.mem_append.1 hx with hx | hx
        · exact hold x (List.mem_append_left _ hx)
        · rcases List.mem_cons.1 hx with rfl | hx
          · exact ⟨r', hr', hname'.trans hname⟩
          · exact hold x (List.mem_append_right _ hx)
      · exact .inr ⟨hlog, before, r, behind, rfl, hold, ⟨r', hr', hname'.trans hname⟩, hbehind'⟩

/-- The read has its page when nothing is left to ask, or the limit is reached. -/
theorem Ahead.paged (h : Ahead M P events rest w) (hlen : events.length ≤ limit)
    (hend : rest = [] ∨ limit ≤ events.length) : Paged M P limit events := by
  obtain ⟨v, more, hv, -, hmore, hevents, -⟩ := h
  refine ⟨v, hv, ?_⟩
  rw [page, ← hevents, List.take_append, List.take_of_length_le hlen]
  rcases hend with rfl | hfull
  · obtain rfl : more = [] := by simpa using hmore
    rw [List.take_nil, List.append_nil]
  · rw [show limit - events.length = 0 by omega, List.take_zero, List.append_nil]

/-- **The next file** gives all it has for the read, or what is left of the limit. -/
theorem Ahead.next [SerdeJson] (ht : Tiled w) (h : Ahead M P events (r :: rest) w)
    (hlen : events.length + n = limit)
    (hmore : collectEventsFromRows ((block P w r.name).take n) = .ok more) :
    ∃ here, ReadAs here more ∧
      ((block P w r.name).length ≤ n → Ahead M P (events ++ here) rest w) ∧
      (n ≤ (block P w r.name).length → Paged M P limit (events ++ here)) := by
  obtain ⟨v, all, hv, hle, hall, hevents, hwhere⟩ := h
  rw [List.flatMap_cons] at hall
  obtain ⟨here, later, rfl, hhere, hlater⟩ := List.append_eq_map_iff.1 hall
  have hstorable : ∀ e ∈ here.take n, e.Storable := by
    intro e he
    have hmem : e ∈ v.log.filter fun e => P e.toRow := by
      rw [← hevents]
      exact List.mem_append_right _ (List.mem_append_left _ (List.mem_of_mem_take he))
    exact ht.storable e (hle.subset (List.mem_of_mem_filter hmem))
  have hread : ReadAs (here.take n) more :=
    (collectEventsFromRows_stored hstorable).1 (by rw [List.map_take, hhere]; exact hmore)
  have hlength : here.length = (block P w r.name).length := by
    rw [← hhere, List.length_map]
  refine ⟨here.take n, hread, fun hshort => ?_, fun hfull => ⟨v, hv, ?_⟩⟩
  · rw [List.take_of_length_le (by omega)]
    refine ⟨v, later, hv, hle, hlater.symm, by rw [List.append_assoc, hevents], ?_⟩
    rcases hwhere with hsettled | ⟨heq, before, r', behind, hsplit, hsettled, hnewest, hbehind⟩
    · exact .inl fun x hx => hsettled x (List.mem_cons_of_mem _ hx)
    · cases before with
      | nil =>
        obtain ⟨rfl, rfl⟩ := List.cons.inj hsplit
        exact .inl fun x hx => hsettled x hx
      | cons x before =>
        obtain ⟨rfl, rfl⟩ := List.cons.inj hsplit
        exact .inr ⟨heq, before, r', behind, rfl,
          fun y hy => hsettled y (List.mem_cons_of_mem _ hy), hnewest, hbehind⟩
  · rw [page, ← hevents, ← hlen, List.take_length_add_append, List.take_append_of_le_length (by omega)]

/-- **What the catalog answers** is all that the read selects at that moment. -/
theorem Ahead.start (hw : Moment M w) {cursor : Int}
    (hafter : ∀ row, P row → cursor < row.version) :
    Ahead M P [] ((rangesAfter cursor w.ranges).insertionSort rangeLe) w := by
  have ht := hw.tiled
  obtain ⟨hnodup, hasked, hsorted⟩ := ht.asked cursor
  set asked := (rangesAfter cursor w.ranges).insertionSort rangeLe
  obtain ⟨init, rn, hinit, -⟩ := ht.newest
  have hlast : w.ranges.getLast? = some rn := by rw [hinit, List.getLast?_concat]
  have hmem : ∀ r ∈ asked, r ∈ w.ranges := fun r hr => List.mem_of_mem_filter ((hasked r).1 hr)
  have hold : ∀ r ∈ w.ranges, r ≠ rn → r ∈ init := by
    intro r hr hne
    rw [hinit] at hr
    rcases List.mem_append.1 hr with hr | hr
    · exact hr
    · exact absurd (List.mem_singleton.1 hr) hne
  have hsettled : ∀ r ∈ asked, r ≠ rn → Settled w r := fun r hr hne =>
    ⟨r, by rw [hinit, List.dropLast_concat]; exact hold r (hmem r hr) hne, rfl⟩
  -- a range that is left out holds nothing behind the cursor
  have hrest : ∀ r ∈ w.ranges, r ∉ asked → ∀ row ∈ w.rowsOf r.name, ¬P row := by
    intro r hr hnot row hrow hP
    have hlt := hafter row hP
    by_cases hrn : r = rn
    · subst hrn
      have hout : r ∉ rangesAfter cursor w.ranges := fun h => hnot ((hasked r).2 h)
      cases hbound : r.lastVersion with
      | none => exact hout (List.mem_filter.2 ⟨hr, by rw [hbound]⟩)
      | some last =>
        have hle := hw.covering.bound r last hlast hbound
        have hversion := ht.toLedger.version_le (World.rowsOf_subset hrow)
        exact hout (List.mem_filter.2 ⟨hr, by rw [hbound]; exact decide_eq_true (by omega)⟩)
    · have := ht.pruned_old hinit (hold r hr hrn) (fun h => hnot ((hasked r).2 h)) hrow
      omega
  have hall := ht.flatMap_sorted (P := P) hnodup hmem hsorted hrest
  rw [List.filter_map] at hall
  refine ⟨w, w.log.filter fun e => P e.toRow, hw.here, List.prefix_refl _, hall, rfl, ?_⟩
  by_cases hrn : rn ∈ asked
  · obtain ⟨before, behind, heq⟩ := List.append_of_mem hrn
    rw [heq] at hnodup hsorted
    obtain ⟨-, hcons, hdisjoint⟩ := List.nodup_append.1 hnodup
    obtain ⟨hbehind, -⟩ := List.nodup_cons.1 hcons
    have hne : ∀ x ∈ before ++ behind, x ≠ rn := by
      rintro x hx rfl
      rcases List.mem_append.1 hx with hx | hx
      · exact hdisjoint x hx x (List.mem_cons_self ..) rfl
      · exact hbehind hx
    have hin : ∀ x ∈ before ++ behind, x ∈ asked := fun x hx => by
      rw [heq]
      rcases List.mem_append.1 hx with hx | hx
      · exact List.mem_append_left _ hx
      · exact List.mem_append_right _ (List.mem_cons_of_mem _ hx)
    refine .inr ⟨rfl, before, rn, behind, heq, fun x hx => hsettled x (hin x hx) (hne x hx),
      ⟨rn, hlast, rfl⟩, fun x hx => ?_⟩
    -- a file that is asked behind the newest one is empty
    have hx' := List.mem_append_right before hx
    have hle : rn.firstVersion ≤ x.firstVersion :=
      (List.pairwise_cons.1 (List.pairwise_append.1 hsorted).2.1).1 x hx
    have hmemx := hmem x (hin x hx')
    refine List.eq_nil_iff_forall_not_mem.2 fun row hrow => ?_
    have hrow' := (mem_block.1 hrow).1
    have hpairs := ht.order
    rw [hinit, List.pairwise_append] at hpairs
    have hlt := (hpairs.2.2 x (hold x hmemx (hne x hx')) rn (by simp)).2 row hrow'
    have hge := ht.laid.lower x hmemx row hrow'
    omega
  · exact .inl fun r hr => hsettled r hr fun heq => hrn (heq ▸ hr)

end Ahead

/-! ## What a read observes -/

/-- A call of `load_workflow_after_version`. -/
structure WorkflowRead where
  workflowStartedByEventId : Uuid
  cursor : EventStreamVersion
  limit : Nat

/-- The calls on one stream, with those of `load_workflow_after_version`. -/
abbrev streamsAndReads [SerdeJson] : Service StoreI Unit :=
  (eventStreams Unit).withReads
    (fun r : WorkflowRead =>
      (loadWorkflowAfterVersion r.workflowStartedByEventId r.cursor r.limit).bind fun events =>
        pure (.loaded events))
    fun h _ w => (w.handles h).isSome

section Observe

variable {M : World Unit → Prop} {w w' : World Unit}

variable (M) in
/-- The others take the store from one moment of the run to the next. -/
def throughMoments [SerdeJson] : Rely streamsAndReads where
  rel w w' := Moment M w → Moment M w' ∧ Since M w w'
  allow _ _ _ _ := True
  trans h h' hw :=
    have h₁ := h hw
    have h₂ := h' h₁.1
    ⟨h₂.1, h₁.2.trans h₂.2⟩

theorem throughMoments_refl [SerdeJson] (w : World Unit) : (throughMoments M).rel w w :=
  fun hw => ⟨hw, .refl hw.here⟩

/-- A statement that answers has been executed. -/
theorem step_sql_ok {ref : DbRef} {s : Stmt} {e : StoreEnv} {a : s.Ans}
    (h : (World.step () (.sql ref s) e w).1 = .ok a) :
    ∃ d d', w.db ref = some d ∧ s.exec d = .ok (a, d') := by
  simp only [World.step, World.stepSql] at h
  split at h
  · cases h
  · cases h
  · rename_i d hfault hd
    cases hex : s.exec d with
    | error err =>
      rw [hex] at h
      cases h
    | ok r =>
      rw [hex] at h
      obtain rfl : r.1 = a := by simpa using h
      exact ⟨d, r.2, hd, hex⟩

/-- A query on a connection of the pool, whose answer is that of some moment. -/
theorem observes_statement [SerdeJson] {ref : DbRef} {s : Stmt} {α : Type} {f : s.Ans → StoreProgram α}
    {Q : Except Abort α → World Unit → Prop} (hs : s.isQuery = true)
    (herr : ∀ e w', Q (.error e) w')
    (hok : ∀ w₁ e a, (throughMoments M).rel w w₁ → (World.step () (.sql ref s) e w₁).1 = .ok a →
      (throughMoments M).observes () (f a).lift Q w₁) :
    (throughMoments M).observes ()
      ((getConnection ref).bind fun _ => (sql ref s).bind f).lift Q w := by
  intro w₁ hw₁ e _
  rw [step_passive (o := .getConnection _) rfl]
  cases (World.step () (.getConnection ref) e w₁).1 with
  | error err => exact fun w' _ => herr _ w'
  | ok u =>
    intro w₂ hw₂ e _
    rw [step_passive (o := .sql _ _) hs]
    generalize hanswer : (World.step () (.sql ref s) e w₂).1 = r
    cases r with
    | error err => exact fun w' _ => herr _ w'
    | ok a => exact hok w₂ e a ((throughMoments M).trans hw₁ hw₂) hanswer

/-- `query` gets the first rows of a block as it is at some moment. -/
def GetsBlock [SerdeJson] (M : World Unit → Prop) (P : EventRow → Prop) [DecidablePred P]
    (query : Text → Nat → StoreProgram (List EventEnvelope)) : Prop :=
  ∀ (w : World Unit) (path : Text) (n : Nat)
    (Q : Except Abort (List EventEnvelope) → World Unit → Prop), (∀ e w', Q (.error e) w') →
    (∀ w₁ more, (throughMoments M).rel w w₁ →
      collectEventsFromRows ((block P w₁ path).take n) = .ok more →
      ∀ w', (throughMoments M).rel w₁ w' → Q (.ok more) w') →
    (throughMoments M).observes () (query path n).lift Q w

theorem getsBlock_of_statement [SerdeJson] {P : EventRow → Prop} [DecidablePred P] {s : Nat → Stmt}
    (hans : ∀ n, (s n).Ans = List EventRow) (hs : ∀ n, (s n).isQuery = true)
    (hexec : ∀ n d a d', (s n).exec d = .ok (a, d') → ∃ rows, d.events = some rows ∧
      ((rows.filter P).insertionSort versionLe).take n = cast (hans n) a) :
    GetsBlock M P fun path n => (getConnection (.eventFile path)).bind fun _ =>
      (sql (.eventFile path) (s n)).bind fun a =>
        ofExcept (collectEventsFromRows (cast (hans n) a)) := by
  intro w path n Q herr hok
  refine observes_statement (hs n) herr fun w₁ e a hw₁ hanswer => ?_
  obtain ⟨d, d', hd, hex⟩ := step_sql_ok hanswer
  obtain ⟨rows, hrows, hr⟩ := hexec n d a d' hex
  have hlookup : w₁.files.lookup path = some d := hd
  have hrowsOf : w₁.rowsOf path = rows := by rw [World.rowsOf, hlookup]; simp [Db.rows, hrows]
  rw [← hr, ofExcept_eq, ← hrowsOf]
  cases hdecode : collectEventsFromRows (((w₁.rowsOf path).filter P).insertionSort versionLe |>.take n) with
  | error err => exact fun w' _ => herr _ w'
  | ok more => exact fun w' hw' => hok w₁ more hw₁ hdecode w' hw'

theorem getsBlock_afterVersion [SerdeJson] (cursor : Int) : GetsBlock M
    (AfterCursor cursor) fun path remaining =>
    queryPartitionEventsAfterVersion path cursor remaining := by
  refine getsBlock_of_statement (s := fun n => .queryEventsAfterVersion cursor n) (fun _ => rfl)
    (fun _ => rfl) fun n d a d' hex => ?_
  obtain ⟨rows, hrows, hr, -⟩ := Stmt.exec_queryEvents.1 hex
  exact ⟨rows, hrows, hr⟩

theorem getsBlock_workflow [SerdeJson] (id : Uuid) (cursor : Int) : GetsBlock M (OfWorkflowAfter id cursor)
    fun path remaining => queryPartitionWorkflowEventsAfterVersion path id cursor remaining := by
  refine getsBlock_of_statement (s := fun n => .queryWorkflowEventsAfterVersion id cursor n)
    (fun _ => rfl) (fun _ => rfl) fun n d a d' hex => ?_
  obtain ⟨rows, hrows, hr, -⟩ := Stmt.exec_queryWorkflowEvents.1 hex
  exact ⟨rows, hrows, hr⟩

section Load

variable {P : EventRow → Prop} [DecidablePred P] {limit : Nat}
  {query : Text → Nat → StoreProgram (List EventEnvelope)}

/-- **The loop**, by induction on the files that are still to be asked. -/
theorem observes_loop [SerdeJson] (hquery : GetsBlock M P query) {rest : List EventFileRange}
    {stored events : List EventEnvelope} (hpath : ∀ r ∈ rest, r.path = r.name) (hw : Moment M w)
    (hread : ReadAs stored events) (hlen : stored.length ≤ limit)
    (hahead : Ahead M P stored rest w ∨ stored.length = limit ∧ Paged M P limit stored) :
    (throughMoments M).observes () (loadFromRanges query limit rest events).lift
      (fun r _ => ∀ events, r = .ok events → ∃ stored, ReadAs stored events ∧ Paged M P limit stored)
      w := by
  have hlength := hread.length_eq
  have hdone : rest = [] ∨ limit ≤ events.length → ∀ w', (throughMoments M).rel w w' →
      ∀ events', (.ok events : Except Abort (List EventEnvelope)) = .ok events' →
        ∃ stored, ReadAs stored events' ∧ Paged M P limit stored := by
    rintro hend w' - _ ⟨⟩
    refine ⟨stored, hread, ?_⟩
    rcases hahead with hahead | ⟨-, hpaged⟩
    · exact hahead.paged hlen (hlength ▸ hend)
    · exact hpaged
  induction rest generalizing stored events w with
  | nil => exact hdone (.inl rfl)
  | cons r rest ih =>
    rw [loadFromRanges, if_neg (by omega)]
    -- the loop stops at the limit, or asks the next file for what is left of it
    by_cases hfull : limit - events.length = 0
    · rw [if_pos hfull]
      exact hdone (.inr (by omega))
    · rw [if_neg hfull, bind_eq, lift_bind]
      have hnext : Ahead M P stored (r :: rest) w := by
        rcases hahead with hahead | ⟨heq, -⟩
        · exact hahead
        · omega
      refine Rely.observes_bind (P := fun q w' => ∀ more, q = .ok more → Moment M w' ∧
        ∃ here, ReadAs here more ∧ (stored ++ here).length ≤ limit ∧
          (Ahead M P (stored ++ here) rest w' ∨
            (stored ++ here).length = limit ∧ Paged M P limit (stored ++ here)))
        (hquery w r.path _ _ (fun _ _ _ h => by cases h) ?_) throughMoments_refl ?_ ?_
      · rintro w₁ more hw₁ hdecode w' hw' _ ⟨⟩
        obtain ⟨hm₁, hs₁⟩ := hw₁ hw
        obtain ⟨hm', hs'⟩ := hw' hm₁
        rw [hpath r (by simp)] at hdecode
        have hleft : stored.length + (limit - events.length) = limit := by omega
        obtain ⟨here, hhere, hshort, hlong⟩ :=
          Ahead.next hm₁.tiled (hnext.grow hw.tiled hm₁.tiled hs₁) hleft hdecode
        have hmore : here.length =
            min (limit - events.length) (block P w₁ r.name).length := by
          rw [hhere.length_eq, length_of_collectEventsFromRows hdecode, List.length_take]
        refine ⟨hm', here, hhere, by rw [List.length_append]; omega, ?_⟩
        -- the file had no more than was asked for, or the page is full
        by_cases hle : (block P w₁ r.name).length ≤ limit - events.length
        · exact .inl ((hshort hle).grow hm₁.tiled hm'.tiled hs')
        · exact .inr ⟨by rw [List.length_append]; omega, hlong (by omega)⟩
      · intro more w' hmore
        obtain ⟨hm', here, hhere, hlen', hahead'⟩ := hmore more rfl
        have hread' := hread.append hhere
        have hlength' := hread'.length_eq
        refine ih (fun r' hr' => hpath r' (List.mem_cons_of_mem _ hr')) hm' hread' hlen' hahead' hlength' ?_
        rintro hend w'' - _ ⟨⟩
        refine ⟨_, hread', ?_⟩
        rcases hahead' with hahead' | ⟨-, hpaged⟩
        · exact hahead'.paged hlen' (hlength' ▸ hend)
        · exact hpaged
      · exact fun e w' _ events h => by cases h

/-- **A read** answers the page of some moment, as its rows decode. -/
theorem observes_loadWith [SerdeJson] (hM : ∀ v, M v → Tiled v) (hquery : GetsBlock M P query)
    {cursor : EventStreamVersion} (hw : Moment M w) (hafter : ∀ row, P row → cursor.get < row.version) :
    (throughMoments M).observes () (loadWith query cursor limit).lift
      (fun r _ => ∀ events, r = .ok events → ∃ v, M v ∧ ReadAs (page P v limit) events) w := by
  unfold loadWith
  cases validateReadLimit limit with
  | error err => exact fun w' _ events h => by cases h
  | ok u =>
    show (throughMoments M).observes () ((getEventFileRangesAfterVersion cursor.get).bind
      fun ranges => (loadFromRanges query limit ranges []).bind fun events =>
        pure ((events.insertionSort eventLe).take limit)).lift _ w
    unfold getEventFileRangesAfterVersion
    rw [bind_eq, bind_assoc]
    refine observes_statement rfl (fun e w' events h => by cases h) fun w₁ e ranges hw₁ hranges => ?_
    obtain ⟨hm₁, -⟩ := hw₁ hw
    have hasked := step_getRangesAfter hranges
    subst hasked
    have hpath : ∀ r ∈ (rangesAfter cursor.get w₁.ranges).insertionSort rangeLe, r.path = r.name :=
      fun r hr => hm₁.tiled.path r
        (List.mem_of_mem_filter ((hm₁.tiled.asked cursor.get).2.1 r |>.1 hr))
    rw [lift_bind]
    refine Rely.observes_bind (Rely.observes_closed (observes_loop hquery hpath hm₁
      .nil (Nat.zero_le limit) (.inl (.start hm₁ hafter)))) throughMoments_refl ?_ fun e w' _ events h => by
        cases h
    rintro events w₂ hevents w' - _ ⟨⟩
    obtain ⟨_, hread, v, hv, rfl⟩ := hevents w₂ (throughMoments_refl w₂) events rfl
    refine ⟨v, hv, ?_⟩
    rw [(hM v hv).toLedger.sorted_page hread]
    exact hread

end Load

/-- A head that was the number of events is so at a later moment, or was it at one in between. -/
theorem Since.head_moment (hs : Since M w w') (hw : Moment M w) {name : Text}
    (hhead : w.headOf name = some (w.log.length : Int)) (hlisted : ∃ r ∈ w.ranges, r.name = name)
    {head : Int} (hread : w'.headOf name = some head) : ∃ v, M v ∧ head = v.log.length := by
  obtain ⟨r, hr, rfl⟩ := hlisted
  rcases hs.heads r hr with hsame | ⟨v, hv, hnew⟩
  · exact ⟨w, hw.here, Option.some.inj (hread.symm.trans (hsame.trans hhead))⟩
  · exact ⟨v, hv, Option.some.inj (hread.symm.trans hnew)⟩

/-- **`current_version`** answers the number of events of some moment. The lock is not needed for
that. -/
theorem observes_currentVersion [SerdeJson] (hw : Moment M w) :
    (throughMoments M).observes () currentVersion
      (fun r _ => ∀ version, r = .ok version → ∃ v, M v ∧ version = ⟨v.log.length⟩) w := by
  refine Rely.observes_withRead throughMoments_refl ?_
  intro w₁ hw₁ e _
  obtain ⟨hm₁, -⟩ := hw₁ hw
  rw [step_passive (o := .readActive) rfl]
  cases ha : w₁.handles () with
  | none =>
    simp only [World.step, ha, Option.map_none]
    exact fun w' _ version h => by cases h
  | some pa =>
    obtain ⟨p, a⟩ := pa
    obtain ⟨hhead, hlisted⟩ := hm₁.covering.active p a ha
    simp only [World.step, ha, Option.map_some]
    show (throughMoments M).observes () ((getConnection (.eventFile a.name)).bind fun _ =>
      ((sql (.eventFile a.name) .readEventFileAppendHead).bind fun row =>
        ofExcept (headOfRow row)).bind fun head =>
          if head = 0 then pure .start else ofExcept (EventStreamVersion.new head)).lift _ w₁
    rw [bind_assoc]
    -- between the two reads a rotation may have made another file the active one
    refine observes_statement rfl (fun e w' version h => by cases h) fun w₂ e row hw₂ hrow => ?_
    obtain ⟨-, hs₂⟩ := hw₂ hm₁
    obtain ⟨d, d', hd, hex⟩ := step_sql_ok hrow
    obtain ⟨hdhead, -⟩ := Stmt.exec_readHead.1 hex
    have hlookup : w₂.files.lookup a.name = some d := hd
    cases row with
    | none => exact fun w' _ version h => by cases h
    | some row =>
      have hread : w₂.headOf a.name = some row.currentVersion := by
        simp [World.headOf, hlookup, Db.headVersion, hdhead]
      -- the head of the file that was active is a version some moment had
      obtain ⟨v, hv, hversion⟩ := hs₂.head_moment hm₁ hhead hlisted hread
      show (throughMoments M).observes () (if row.currentVersion = 0 then pure .start
        else ofExcept (EventStreamVersion.new row.currentVersion)).lift _ w₂
      by_cases hz : row.currentVersion = 0
      · rw [if_pos hz]
        rintro w' - _ ⟨⟩
        exact ⟨v, hv, by rw [← hversion, hz]; rfl⟩
      · rw [if_neg hz, EventStreamVersion.new_ok (by omega)]
        rintro w' - _ ⟨⟩
        exact ⟨v, hv, by rw [hversion]⟩

end Observe

/-! ## Runs -/

/-- A call that only reads. -/
def IsRead : StreamCall ⊕ WorkflowRead → Prop
  | .inl (.loadAfterVersion _ _ _) => True
  | .inl (.currentVersion _) => True
  | .inl _ => False
  | .inr _ => True

/-- What a read answers at `w`. -/
inductive AnswerAt [SerdeJson] (w : World Unit) : StreamCall ⊕ WorkflowRead → StreamAns → Prop where
  | load {rotation : RotationPolicy} {cursor : EventStreamVersion} {limit : Nat}
      {events : List EventEnvelope} (h : ReadAs (page (AfterCursor cursor.get) w limit) events) :
    AnswerAt w (.inl (.loadAfterVersion rotation cursor limit)) (.loaded events)
  | loadWorkflow {r : WorkflowRead} {events : List EventEnvelope}
      (h : ReadAs (page (OfWorkflowAfter r.workflowStartedByEventId r.cursor.get) w r.limit) events) :
    AnswerAt w (.inr r) (.loaded events)
  | currentVersion {rotation : RotationPolicy} :
    AnswerAt w (.inl (.currentVersion rotation)) (.version ⟨w.log.length⟩)

/-- The answer to a read is that of some moment. -/
def OfMoment [SerdeJson] (M : World Unit → Prop) (_ : Unit) (call : StreamCall ⊕ WorkflowRead)
    (r : Except Abort StreamAns) (_ : World Unit) : Prop :=
  ∀ answer, r = .ok answer → ∃ v, M v ∧ AnswerAt v call answer

theorem observes_read [SerdeJson] {M : World Unit → Prop} {w : World Unit} (hM : ∀ v, M v → Tiled v)
    (hw : Moment M w) {call : StreamCall ⊕ WorkflowRead} (hread : IsRead call) :
    (throughMoments M).observes () (streamsAndReads.code call) (OfMoment M () call) w := by
  rcases call with call | ⟨id, cursor, limit⟩
  · cases call with
    | loadAfterVersion rotation cursor limit =>
      refine Rely.observes_bind (Rely.observes_closed (observes_loadWith hM
        (getsBlock_afterVersion cursor.get) hw fun _ h => h)) throughMoments_refl ?_ fun e w' _ a h => by
          cases h
      rintro events w₁ hevents w' - _ ⟨⟩
      obtain ⟨v, hv, hread⟩ := hevents w₁ (throughMoments_refl w₁) events rfl
      exact ⟨v, hv, .load hread⟩
    | currentVersion rotation =>
      refine Rely.observes_bind (Rely.observes_closed (observes_currentVersion hw))
        throughMoments_refl ?_ fun e w' _ a h => by cases h
      rintro version w₁ hversion w' - _ ⟨⟩
      obtain ⟨v, hv, rfl⟩ := hversion w₁ (throughMoments_refl w₁) version rfl
      exact ⟨v, hv, .currentVersion⟩
    | _ => exact hread.elim
  · show (throughMoments M).observes () ((loadWorkflowAfterVersion id cursor limit).bind
      fun events => pure (StreamAns.loaded events)).lift _ w
    rw [lift_bind]
    refine Rely.observes_bind (Rely.observes_closed (observes_loadWith hM
      (getsBlock_workflow id cursor.get) hw fun _ h => h.2)) throughMoments_refl ?_
      fun e w' _ a h => by cases h
    rintro events w₁ hevents w' - _ ⟨⟩
    obtain ⟨v, hv, hread⟩ := hevents w₁ (throughMoments_refl w₁) events rfl
    exact ⟨v, hv, .loadWorkflow hread⟩

/-- A read of a workflow run asks for connections and makes queries. -/
theorem all_loadWorkflowAfterVersion [SerdeJson] (id : Uuid) (cursor : EventStreamVersion) (limit : Nat) :
    (loadWorkflowAfterVersion id cursor limit).All fun o : StoreOp => o.isPassive = true := by
  have hfile : ∀ path n, (queryPartitionWorkflowEventsAfterVersion path id cursor.get n).All
      fun o : StoreOp => o.isPassive = true := by
    intro path n
    refine All.bind (all_getConnection rfl) fun _ => ?_
    exact All.bind (all_sql rfl) fun rows => all_orEs _
  have hloop : ∀ ranges events, (loadFromRanges (fun path remaining =>
      queryPartitionWorkflowEventsAfterVersion path id cursor.get remaining) limit ranges events).All
      fun o : StoreOp => o.isPassive = true := by
    intro ranges
    induction ranges with
    | nil => exact fun events => trivial
    | cons range ranges ih =>
      intro events
      rw [loadFromRanges]
      split
      · trivial
      · split
        · trivial
        · exact (hfile _ _).bind fun more => ih _
  unfold loadWorkflowAfterVersion loadWith
  refine (all_orEs _).bind fun _ => ?_
  refine All.bind ?_ fun ranges => (hloop ranges []).bind fun events => trivial
  exact All.bind (all_getConnection rfl) fun _ => all_sql rfl

section Runs

variable [SerdeJson] {T : Type} [DecidableEq T] {rotation : RotationPolicy} {w₀ : World Unit}
  {tr : List (Label streamsAndReads T × Config streamsAndReads T)}
  {c c' : Config streamsAndReads T} {l : Label streamsAndReads T}

/-- Every rotation goes to a new file and every append to an open range; the process is not
restarted. -/
def AppendsToOpen (c : Config streamsAndReads T) : Label streamsAndReads T → Prop
  | .acquireWrite _ _ note => FreshNote note c.st
  | .op _ _ o _ => ToOpenRange c.st o
  | .restart => False
  | _ => True

/-- The discipline of the calls with the reads of workflow runs among them. -/
abbrev readsDiscipline : Discipline streamsAndReads CallStatus := snapshotDiscipline.withReads _ _ .other

theorem lawful_readsDiscipline :
    readsDiscipline.Lawful (Sum.elim AppendPost fun _ _ _ => True) := by
  refine lawful_snapshotDiscipline.withReads fun r => ?_
  have hall := all_loadWorkflowAfterVersion r.workflowStartedByEventId r.cursor r.limit
  exact All.bind (hall.mono fun _ ho => reads_snapshotDiscipline.passive ho) fun _ => trivial

variable {g : T → CallStatus}

omit [DecidableEq T] in
theorem permits_of_appendsToOpen (h : AppendsToOpen c l) : readsDiscipline.Permits c l := by
  cases l with
  | restart => exact h.elim
  | _ => exact h

/-- A step takes the store from one moment to the next. -/
theorem moves_step (hs : readsDiscipline.Sound (Sum.elim AppendPost fun _ _ _ => True) c g)
    (hstep : Step c l c') (hl : AppendsToOpen c l) : Moves c.st c'.st := by
  have hp := permits_of_appendsToOpen hl
  cases hstep with
  | op t h call o k e ht => exact (hs.guarantee (.op t h call o k e ht) hp).1
  | restart => exact hl.elim
  | _ => exact .refl _

omit [SerdeJson] in
/-- The first open leaves no event out. -/
theorem FirstOpen.covering {t : OffsetDateTime} {a : ActivePartition} {w : World Unit}
    (h : FirstOpen rotation t a w) : Covering w where
  bound r last hr hlast := by
    rw [h.ranges] at hr
    obtain rfl := Option.some.inj hr
    cases hlast
  active p a' ha' := by
    rw [h.handle] at ha'
    obtain ⟨rfl, rfl⟩ : rotation = p ∧ a = a' := by simpa using ha'
    refine ⟨?_, rangeOf a.name 0, by rw [h.ranges]; exact List.mem_singleton_self _, rfl⟩
    rw [World.headOf, h.file, h.log]
    rfl

/-- The read of `t` is carried along a run. -/
theorem observed_moments {M : World Unit → Prop} {t : T}
    (hs : readsDiscipline.Sound (Sum.elim AppendPost fun _ _ _ => True) c g)
    (hobs : (throughMoments M).Observed (OfMoment M) (fun u => u = t) c) (hm : M c.st)
    (hrun : IsRun AppendsToOpen c tr)
    (htr : ∀ x ∈ tr, M x.2.st ∧ ∀ h call, x.1 ≠ .invoke t h call) :
    (throughMoments M).Observed (OfMoment M) (fun u => u = t) (lastOf c tr) := by
  induction tr generalizing c g with
  | nil => exact hobs
  | cons x tr ih =>
    obtain ⟨l, c'⟩ := x
    obtain ⟨hstep, hl, hrest⟩ := hrun
    obtain ⟨hm', hother⟩ := htr (l, c') List.mem_cons_self
    have hs' := sound_step lawful_readsDiscipline hs hstep (permits_of_appendsToOpen hl)
    have hrel : (throughMoments M).rel c.st c'.st := fun _ =>
      ⟨⟨hs'.always.1, hs'.always.2.2, hm'⟩, (moves_step hs hstep hl).since hs'.always.1 hm'⟩
    refine ih hs' ?_ hm' hrest fun x hx => htr x (List.mem_cons_of_mem _ hx)
    refine Rely.observed_step throughMoments_refl hobs hstep hrel ?_ fun _ _ _ _ _ => trivial
    rintro u h call rfl rfl
    exact absurd rfl (hother h call)

/-- **Reads are atomic**: whatever is appended and rotated meanwhile, the answer to a read is what it
answers at one moment between its call and its answer. -/
theorem reads_atomic (hopen : Opens rotation World.empty w₀)
    (hrun : IsRun AppendsToOpen (Config.idle T w₀) tr) :
    ∀ (tr₁ tr₂ tr₃ : List (Label streamsAndReads T × Config streamsAndReads T)) c₁ c₂ t h call answer,
      tr = tr₁ ++ (.invoke t h call, c₁) :: tr₂ ++ (.respond t h call (.ok answer), c₂) :: tr₃ →
      (∀ x ∈ tr₂, ∀ h' call', x.1 ≠ .invoke t h' call') → IsRead call →
      ∃ x ∈ statesOf c₁ tr₂, AnswerAt x.st call answer := by
  rintro tr₁ tr₂ tr₃ c₁ c₂ t h call answer rfl hcall hread
  obtain ⟨t₀, a, hfirst⟩ := firstOpen_of_opens hopen
  obtain ⟨hbefore, hrespond, -, -⟩ := hrun.of_append
  obtain ⟨hfirsts, hinvoke, hl, hbetween⟩ := hbefore.of_append
  have hs₀ := sound_run lawful_readsDiscipline (fun _ _ => permits_of_appendsToOpen)
    (sound_idle (T := T) lawful_readsDiscipline ⟨hfirst.intact, hfirst.covering⟩ fun _ => .other) hfirsts
  have hs₁ := sound_step lawful_readsDiscipline hs₀ hinvoke (permits_of_appendsToOpen hl)
  set M : World Unit → Prop := fun v => ∃ x ∈ statesOf c₁ tr₂, x.st = v
  have htiled : ∀ x ∈ statesOf c₁ tr₂, Tiled x.st := by
    have hall := hbetween.invariant
      (P := fun x => ∃ g, readsDiscipline.Sound (Sum.elim AppendPost fun _ _ _ => True) x g)
      ⟨_, hs₁⟩ fun c l c' ⟨g, hs⟩ hstep hl =>
        ⟨_, sound_step lawful_readsDiscipline hs hstep (permits_of_appendsToOpen hl)⟩
    intro x hx
    obtain ⟨g, hs⟩ := hall x hx
    exact hs.always.1
  have hM : ∀ v, M v → Tiled v := by
    rintro v ⟨x, hx, rfl⟩
    exact htiled x hx
  have hm₁ : M c₁.st := ⟨c₁, by simp [statesOf], rfl⟩
  have hmoment : Moment M c₁.st := ⟨hs₁.always.1, hs₁.always.2.2, hm₁⟩
  -- from its call on the read observes the moments of the run
  have hobs₁ : (throughMoments M).Observed (OfMoment M) (fun u => u = t) c₁ := by
    have hst : c₁.st = (lastOf (Config.idle T w₀) tr₁).st := by cases hinvoke; rfl
    have hfree : (lastOf (Config.idle T w₀) tr₁).tasks t = none := by cases hinvoke; assumption
    refine Rely.observed_step throughMoments_refl (fun u task hu htask => ?_) hinvoke
      (by rw [hst]; exact throughMoments_refl _) ?_ fun _ _ _ _ _ => trivial
    · rw [hu, hfree] at htask
      cases htask
    · rintro u h' call' rfl hlabel
      obtain ⟨-, -, rfl⟩ := Label.invoke.inj hlabel
      exact observes_read hM (hst ▸ hmoment) hread
  have hobs := observed_moments hs₁ hobs₁ hm₁ hbetween fun x hx =>
    ⟨⟨x.2, List.mem_cons_of_mem _ (List.mem_map_of_mem hx), rfl⟩, hcall x hx⟩
  rw [lastOf_append] at hrespond
  obtain ⟨v, ⟨x, hx, rfl⟩, hanswer⟩ := hobs.respond throughMoments_refl rfl hrespond answer rfl
  exact ⟨x, hx, hanswer⟩

/-- The test of `AppendsToOpen`. -/
def isToOpen (c : Config streamsAndReads T) : Label streamsAndReads T → Bool
  | .acquireWrite t h note => isFreshNote (Config.idle T c.st) (.acquireWrite t h note)
  | .op _ _ (.appendTransaction name _ _ _) _ =>
    c.st.ranges.all fun r => r.name != name || r.lastVersion.isNone
  | .restart => false
  | _ => true

omit [DecidableEq T] in
theorem appendsToOpen_of_isToOpen (h : isToOpen c l = true) : AppendsToOpen c l := by
  cases l with
  | acquireWrite t hd note => exact freshNote_of_isFreshNote h
  | op t hd o e =>
    cases o with
    | appendTransaction name expected events baseTime =>
      intro r hr hname
      have hall := List.all_eq_true.1 h r hr
      simpa [hname] using hall
    | _ => trivial
  | restart => cases h
  | _ => trivial

end Runs

attribute [local instance] SerdeJson.limited

/-- A workflow run is read while it is continued in the second hour: the read has asked the catalog
before the second file is there, and the append commits before it asks for the events. -/
def readsWorkflow : List (Move streamsAndReads Bool) :=
  .invoke true () (.inl (.append hourly 1 .any [startEvent])) :: List.replicate 15 (.turn true {}) ++
    .invoke true () (.inl (.append hourly 1 .any [continueEvent])) ::
      List.replicate 15 (.turn true atOne) ++
    .invoke false () (.inr ⟨⟨0⟩, .start, 10⟩) :: List.replicate 3 (.turn false {}) ++
    List.replicate 25 (.turn true atOne) ++ List.replicate 2 (.turn false {})

/-- How many events the last step of a run answers. -/
def answeredLast (tr : List (Label streamsAndReads Bool × Config streamsAndReads Bool)) : Option Nat :=
  match tr.getLast? with
  | some (.respond _ _ _ (.ok (.loaded events)), _) => some events.length
  | _ => none

theorem reads_atomic_readsWorkflow :
    ∃ tr, play readsWorkflow (Config.idle Bool opened) = some tr ∧
      (lastOf (Config.idle Bool opened) tr).st.files.keys.length = 2 ∧
      (lastOf (Config.idle Bool opened) tr).st.log.length = 2 ∧
      answeredLast tr = some 1 ∧
      ∀ (tr₁ tr₂ tr₃ : List (Label streamsAndReads Bool × Config streamsAndReads Bool)) c₁ c₂ t h
        call answer,
        tr = tr₁ ++ (.invoke t h call, c₁) :: tr₂ ++ (.respond t h call (.ok answer), c₂) :: tr₃ →
        (∀ x ∈ tr₂, ∀ h' call', x.1 ≠ .invoke t h' call') → IsRead call →
        ∃ x ∈ statesOf c₁ tr₂, AnswerAt x.st call answer := by
  have hplay : ((play readsWorkflow (Config.idle Bool opened)).map fun tr =>
      checks isToOpen (Config.idle Bool opened) tr &&
      ((lastOf (Config.idle Bool opened) tr).st.files.keys.length == 2 &&
      ((lastOf (Config.idle Bool opened) tr).st.log.length == 2 &&
      answeredLast tr == some 1))) = some true := by
    decide +kernel
  obtain ⟨tr, htr, hchecks⟩ := Option.map_eq_some_iff.1 hplay
  simp only [Bool.and_eq_true, beq_iff_eq] at hchecks
  obtain ⟨htoOpen, hfiles, hlog, hanswered⟩ := hchecks
  have hrun := (play_checks htr htoOpen).mono fun c l hl => appendsToOpen_of_isToOpen hl
  exact ⟨tr, htr, hfiles, hlog, hanswered, reads_atomic opens_opened hrun⟩

end Events
