import Events.CrashRecovery

/-!
# The order of creation

A stream with one policy creates its event files in the order of their names, in any run, whatever fails and
wherever it is stopped, as long as no rotation takes the write lock to go to a label that begins before that
of a file that is there.

* **`Labelled`** — the invariant: the files are a set of names without a gap, the ranges are of files, and
  the active file is one.
* **`Labelled.wp_open`**, **`Labelled.wp_rotate`** — what opening and rotating do to it, operation by
  operation.
* **`lawful_namedDiscipline`** — the calls keep it, and create files in the order of their names.
* **`names_in_order`** — accepted names compare as what they say, and ranges that begin with one version are
  ordered as their files were created.
-/

namespace Events

open Proc Program Discipline

/-! ## The invariant -/

/-- The names with an event file. -/
def World.names (w : World Unit) : Set Text := {n | w.files.lookup n ≠ none}

/-- The active partition is a file, with what its name says. -/
structure Held (window : Duration) (names : Set Text) (a : ActivePartition) : Prop where
  isFile : a.name ∈ names
  named : -62167219200000 ≤ a.startMs → Named a.name (labelStart window a.startMs, a.ordinal)

/-- The store of a stream with one policy. -/
structure Labelled (policy : RotationPolicy) (w : World Unit) : Prop where
  nameSet : NameSet policy.window w.names
  listed : ∀ r ∈ w.ranges, r.path = r.name ∧ r.name ∈ w.names
  held : ∀ p a, w.handles () = some (p, a) → Held policy.window w.names a

section Invariant

variable {policy : RotationPolicy} {w w' w₀ : World Unit} {name : Text} {v : Int} {a : ActivePartition}

theorem names_of_files (h : w'.files = w.files) : w'.names = w.names := by
  unfold World.names
  rw [h]

/-- While a file is prepared, it is the only one that may come in addition. -/
theorem Building.names (hb : Building name v w₀ w) :
    w.names = w₀.names ∨ w.names = insert name w₀.names := by
  have hothers : ∀ n, n ≠ name → (n ∈ w.names ↔ n ∈ w₀.names) := by
    intro n hn
    show w.files.lookup n ≠ none ↔ w₀.files.lookup n ≠ none
    rw [hb.others n hn]
  by_cases hfile : name ∈ w.names
  · refine .inr (Set.ext fun n => ?_)
    by_cases hn : n = name
    · subst hn
      exact iff_of_true hfile (.inl rfl)
    · rw [Set.mem_insert_iff, hothers n hn]
      exact (or_iff_right hn).symm
  · refine .inl (Set.ext fun n => ?_)
    by_cases hn : n = name
    · subst hn
      exact iff_of_false hfile fun h => hfile (hb.kept h)
    · exact hothers n hn

theorem Building.subset (hb : Building name v w₀ w) : w₀.names ⊆ w.names := by
  rcases hb.names with h | h
  · exact h.symm.subset
  · rw [h]
    exact Set.subset_insert _ _

theorem Ascends.refl (names : Set Text) : Ascends names names := fun _ h hnot => absurd h hnot

/-- A name that goes behind the others comes in at one moment. -/
theorem GoesBehind.ascends {window : Duration} {names S S' : Set Text}
    (h : name ∈ names ∨ GoesBehind window names name) (hS : S = names ∨ S = insert name names)
    (hS' : S' = names ∨ S' = insert name names) : Ascends S S' := by
  intro n hn hnot u hu m hm x hx
  have hname : n = name := by
    rcases hS' with rfl | rfl
    · rcases hS with rfl | rfl
      · exact absurd hn hnot
      · exact absurd (.inr hn) hnot
    · rcases hn with rfl | hn
      · rfl
      · rcases hS with rfl | rfl
        · exact absurd hn hnot
        · exact absurd (.inr hn) hnot
  subst hname
  rcases hS with rfl | rfl
  · exact (h.resolve_left hnot).last u hu m hm x hx
  · exact absurd (.inl rfl) hnot

/-- The ranges and the handle are as before, or of files. -/
theorem Labelled.of_names (h : Labelled policy w) (hnames : w'.names = w.names)
    (hlisted : ∀ r ∈ w'.ranges, r.path = r.name ∧ r.name ∈ w.names)
    (hheld : ∀ p a, w'.handles () = some (p, a) → Held policy.window w.names a) : Labelled policy w' where
  nameSet := by rw [hnames]; exact h.nameSet
  listed := by rw [hnames]; exact hlisted
  held := by rw [hnames]; exact hheld

theorem Labelled.of_catalogOpened (h : Labelled policy w) (hw' : CatalogOpened w w') :
    Labelled policy w' :=
  h.of_names (names_of_files hw'.files) (by rw [hw'.ranges]; exact h.listed)
    (by rw [hw'.handles]; exact h.held)

/-- The ranges are changed, and stay ranges of files. -/
theorem Labelled.updated {f : List EventFileRange → List EventFileRange} (h : Labelled policy w)
    (hu : RangesUpdated f w w') (hf : ∀ r ∈ f w.ranges, r.path = r.name ∧ r.name ∈ w.names) :
    Labelled policy w' :=
  h.of_names (names_of_files hu.files) (by rw [hu.ranges]; exact hf) (by rw [hu.handles]; exact h.held)

theorem Labelled.sealed {head : Int} (h : Labelled policy w)
    (hu : RangesUpdated (Stmt.sealRange name head) w w') : Labelled policy w' := by
  refine h.updated hu fun r hr => ?_
  obtain ⟨r₀, hr₀, rfl⟩ := List.mem_map.1 hr
  split
  · exact h.listed r₀ hr₀
  · exact h.listed r₀ hr₀

/-- A range of a file is added. -/
theorem Labelled.upserted {head : Int} (h : Labelled policy w) (hname : name ∈ w.names)
    (hu : RangesUpdated (Stmt.upsert (rangeOf name head)) w w') : Labelled policy w' := by
  refine h.updated hu fun r hr => ?_
  unfold Stmt.upsert at hr
  split at hr
  · obtain ⟨r₀, hr₀, rfl⟩ := List.mem_map.1 hr
    split
    · exact ⟨rfl, hname⟩
    · exact h.listed r₀ hr₀
  · rcases List.mem_append.1 hr with hr | hr
    · exact h.listed r hr
    · rw [List.mem_singleton.1 hr]
      exact ⟨rfl, hname⟩

/-- A file is prepared whose name goes behind the others, or is there. -/
theorem Labelled.building (h : Labelled policy w₀)
    (hname : name ∈ w₀.names ∨ GoesBehind policy.window w₀.names name) (hb : Building name v w₀ w) :
    Labelled policy w where
  nameSet := by
    rcases hb.names with heq | heq
    · rw [heq]
      exact h.nameSet
    · rw [heq]
      rcases hname with hname | hname
      · rw [Set.insert_eq_of_mem hname]
        exact h.nameSet
      · exact h.nameSet.insert hname
  listed := by
    intro r hr
    rw [World.ranges, hb.catalog] at hr
    exact ⟨(h.listed r hr).1, hb.subset (h.listed r hr).2⟩
  held := by
    intro p a ha
    rw [hb.handles] at ha
    exact ⟨hb.subset (h.held p a ha).isFile, (h.held p a ha).named⟩

/-- The handle goes over to a file. -/
theorem Labelled.switched (h : Labelled policy w) (ha : Held policy.window w.names a)
    (hfiles : w'.files = w.files) (hcatalog : w'.catalog = w.catalog)
    (hhandles : ∀ p a', w'.handles () = some (p, a') → a' = a) : Labelled policy w' := by
  refine h.of_names (names_of_files hfiles) ?_ fun p a' ha' => ?_
  · rw [World.ranges, hcatalog]
    exact h.listed
  · rw [hhandles p a' ha']
    exact ha

theorem Labelled.restart (h : Labelled policy w) : Labelled policy w.restart :=
  h.of_names rfl h.listed fun _ _ ha => by cases ha

/-- A file that is there, with what the parser reads from its name. -/
theorem Labelled.held_of_parse (h : Labelled policy w) {u : Int × Option Nat} (hname : name ∈ w.names)
    (hparse : parsePartitionName name = .ok u) : Held policy.window w.names ⟨name, u.1, u.2⟩ := by
  refine ⟨hname, fun _ => ?_⟩
  have hnamed := named_of_parse hparse
  show Named name (labelStart policy.window u.1, u.2)
  rw [(h.nameSet.shaped name hname u hnamed).2]
  exact hnamed

theorem mem_names_of_headOf {head : Int} (h : w.headOf name = some head) : name ∈ w.names := by
  intro hnone
  rw [World.headOf, hnone] at h
  cases h

end Invariant

/-! ## Rotating -/

/-- The label that a rotation at `nowMs` goes to does not begin before that of a file that is there. -/
def GoesOn (rotation : RotationPolicy) (nowMs : Int) (w : World Unit) : Prop :=
  ∀ p a name startMs ordinal, w.handles () = some (p, a) →
    determineNewPartitionInfo rotation a.startMs a.ordinal nowMs = .ok (name, startMs, ordinal) →
    ∀ v, parsePartitionName name = .ok v → ∀ n ∈ w.names, ∀ u, parsePartitionName n = .ok u → u.1 ≤ v.1

/-- A rotation has no ordinal, or the next one of the window. -/
theorem determineNewPartitionInfo_next {rotation : RotationPolicy} {startMs nowMs newStartMs : Int}
    {ordinal newOrdinal : Option Nat} {name : Text}
    (h : determineNewPartitionInfo rotation startMs ordinal nowMs = .ok (name, newStartMs, newOrdinal)) :
    newOrdinal = none ∨ newStartMs = startMs ∧ newOrdinal.getD 0 = ordinal.getD 0 + 1 := by
  unfold determineNewPartitionInfo at h
  split at h
  · cases h
  · rename_i s hs
    split at h
    · rename_i hsame
      split at h
      · cases h
      · rename_i n hnext
        have hn : n = ordinal.getD 0 + 1 := by
          unfold getNextOrdinal at hnext
          split at hnext
          · exact (Option.some.inj hnext).symm
          · split at hnext
            · exact (Option.some.inj hnext).symm
            · cases hnext
        cases hname : generatePartitionName s rotation.window (some n) with
        | error err => rw [hname] at h; cases h
        | ok newName => rw [hname] at h; cases h; exact .inr ⟨hsame, hn⟩
    · cases hname : generatePartitionName s rotation.window none with
      | error err => rw [hname] at h; cases h
      | ok newName => rw [hname] at h; cases h; exact .inl rfl

section Rotate

variable {policy : RotationPolicy} {w : World Unit} {nowMs : Int} {C : Contract (storeMachine ())}

/-- What a rotation goes to is a file already, or goes behind all files. -/
theorem Labelled.target {p : RotationPolicy} {a new : ActivePartition} (h : Labelled policy w)
    (hon : GoesOn policy nowMs w) (ha : w.handles () = some (p, a))
    (hnew : determineNewPartitionInfo policy a.startMs a.ordinal nowMs =
      .ok (new.name, new.startMs, new.ordinal)) :
    new.name ∈ w.names ∨ GoesBehind policy.window w.names new.name := by
  by_cases hname : new.name ∈ w.names
  · exact .inl hname
  · refine .inr (h.nameSet.goesBehind (determineNewPartitionInfo_generated hnew) hname
      (fun v hv m hm u hu => hon p a _ _ _ ha hnew v hv.parse m hm u hu.parse) fun hlower => ?_)
    refine (determineNewPartitionInfo_next hnew).imp_right fun ⟨hstart, hordinal⟩ => ?_
    -- the file of the ordinal before it is the active one
    rw [hstart] at hlower ⊢
    exact ⟨a.name, (h.held p a ha).isFile, a.ordinal, (h.held p a ha).named hlower, hordinal⟩

/-- **Rotating** keeps the invariant at each of its steps, and creates no file but one that goes behind the
others. -/
theorem Labelled.wp_rotate (h : Labelled policy w) (hon : GoesOn policy nowMs w)
    (hG : ∀ (o : StoreOp) w₁ w₂, o.isAppend = false → Ascends w₁.names w₂.names → Labelled policy w₂ →
      C.guarantee o w₁ w₂) :
    wp C (rotatePartitionLocked policy nowMs) (fun _ w' => Labelled policy w') w := by
  refine wp_rotatePartitionLocked
    (fun o ho => hG o w w (isAppend_of_isPassive ho) (.refl _) h) (fun _ => h)
    fun p a new head ha hnew _ => ?_
  have htarget := h.target hon ha hnew
  -- the range of the active file is sealed, and the new file may be there
  have hrot : ∀ {w'}, Rotating a.name head new.name w w' → Labelled policy w' ∧
      (w'.names = w.names ∨ w'.names = insert new.name w.names) := by
    rintro w' ⟨w₁, hsealed, hb⟩
    have hsame := names_of_files hsealed.files
    have hnames := hb.names
    rw [hsame] at hnames
    exact ⟨(h.sealed hsealed).building (by rw [hsame]; exact htarget) hb, hnames⟩
  have hlisted : ∀ w' w'', Prepared a.name head new.name w w' →
      RangesUpdated (Stmt.upsert (rangeOf new.name head)) w' w'' → Labelled policy w'' :=
    fun w' w'' hw' hu => (hrot hw'.1).1.upserted (mem_names_of_headOf hw'.2.1) hu
  refine wp_rotateTo (fun o ho => hG o w w (isAppend_of_onCatalog ho) (.refl _) h)
    (fun w' hw' => hG _ _ _ rfl ?_ (h.sealed hw'))
    (fun o w' w'' ho hw' hw'' => hG o _ _ ?_ ?_ (hrot hw'').1)
    (fun w' w'' hw' hu => hG _ _ _ rfl ?_ (hlisted w' w'' hw' hu))
    (fun w'' hw'' => ?_) (fun _ _ => h) fun _ _ hw' _ => (hrot hw').1
  · rw [names_of_files hw'.files]
    exact .refl _
  · rcases ho with ho | ⟨ho, -⟩
    · exact isAppend_of_prepares ho
    · exact isAppend_of_onCatalog ho
  · exact GoesBehind.ascends htarget (hrot hw').2 (hrot hw'').2
  · rw [names_of_files hu.files]
    exact .refl _
  · obtain ⟨w', hw', hu⟩ := hw''
    have hheld : Held policy.window w''.names new := by
      refine ⟨?_, fun hlower => (generated_named (determineNewPartitionInfo_generated hnew) hlower).1⟩
      rw [names_of_files hu.files]
      exact mem_names_of_headOf hw'.2.1
    have hactivated : Labelled policy (w''.activate () new) := by
      refine (hlisted w' w'' hw' hu).switched hheld rfl rfl fun p' a' ha' => ?_
      have hupdate : Function.update w''.handles () ((w''.handles ()).map fun p => (p.1, new)) () =
          some (p', a') := ha'
      rw [Function.update_self] at hupdate
      obtain ⟨_, _, heq⟩ := Option.map_eq_some_iff.1 hupdate
      exact (Prod.mk.inj heq).2.symm
    exact ⟨hG _ _ _ rfl (.refl _) hactivated, hactivated⟩

end Rotate

/-! ## Opening -/

theorem mem_of_maxRange {rs : List EventFileRange} {r : EventFileRange} (h : maxRange rs = some r) :
    r ∈ rs := by
  cases rs with
  | nil => cases h
  | cons r₀ rs =>
    obtain rfl := Option.some.inj h
    -- the best so far is one of those that have been seen
    have hfold : ∀ (rs : List EventFileRange) (best : EventFileRange),
        rs.foldl (fun best r => if rangeLe best r then r else best) best ∈ best :: rs := by
      intro rs
      induction rs with
      | nil => exact fun best => List.mem_cons_self
      | cons r' rs ih =>
        intro best
        rw [List.foldl_cons]
        split
        · exact List.mem_cons_of_mem _ (ih r')
        · rcases List.mem_cons.1 (ih best) with heq | hmem
          · rw [heq]
            exact List.mem_cons_self
          · exact List.mem_cons_of_mem _ (List.mem_cons_of_mem _ hmem)
    exact hfold rs r₀

theorem path_of_rangesOfSummaries {l : List EventFileSummary} {r : EventFileRange}
    (h : r ∈ rangesOfSummaries l) : r.path = r.name := by
  induction l with
  | nil => cases h
  | cons s l ih =>
    cases l with
    | nil => rw [List.mem_singleton.1 h]; rfl
    | cons s' l =>
      rcases List.mem_cons.1 h with rfl | h
      · rfl
      · exact ih h

section Open

variable {policy : RotationPolicy} {w : World Unit} {C : Contract (storeMachine ())}

/-- The rebuilt ranges are of the event files. -/
theorem mem_rebuiltRanges {r : EventFileRange} (h : r ∈ rebuiltRanges w w.directory) :
    r.path = r.name ∧ isEventFileName r.name = true ∧ r.name ∈ w.names := by
  have hname := (names_rebuiltRanges (w := w) w.directory).mem_iff.1 (List.mem_map_of_mem h)
  obtain ⟨hmem, hevent⟩ := List.mem_filter.1 hname
  exact ⟨path_of_rangesOfSummaries h, hevent, (mem_directory hevent).1 hmem⟩

/-- Where the rebuild leaves no range unsealed, no file has an accepted name. -/
theorem no_file_of_maxRange
    (h : maxRange ((rebuiltRanges w w.directory).filter fun r => !r.isSealed) = none) :
    ∀ n ∈ w.names, ∀ v, ¬Named n v := by
  intro n hn v hv
  have hevent := isEventFileName_of_accepted ⟨v, hv.parse⟩
  have hmem : n ∈ (rebuiltRanges w w.directory).map EventFileRange.name :=
    (names_rebuiltRanges (w := w) w.directory).mem_iff.2
      (List.mem_filter.2 ⟨(mem_directory hevent).2 hn, hevent⟩)
  unfold rebuiltRanges at h hmem
  generalize (((w.directory.filter isEventFileName).map w.summary).insertionSort summaryLe) = l at h hmem
  rcases List.eq_nil_or_concat l with rfl | ⟨init, s, rfl⟩
  · cases hmem
  · -- the last range of a rebuild is not sealed
    rw [List.concat_eq_append, unsealed_rangesOfSummaries] at h
    cases h

/-- A first file, where no file has an accepted name. -/
theorem Labelled.wp_first {Q : Except Abort ActivePartition → World Unit → Prop} (h : Labelled policy w)
    (hnone : ∀ n ∈ w.names, ∀ v, ¬Named n v)
    (hG : ∀ (o : StoreOp) w₁ w₂, o.isAppend = false → Ascends w₁.names w₂.names → Labelled policy w₂ →
      C.guarantee o w₁ w₂)
    (hok : ∀ a w', Labelled policy w' → Held policy.window w'.names a → Q (.ok a) w')
    (herr : ∀ e w', Labelled policy w' → Q (.error e) w') :
    wp C (createNewActivePartition policy 1) Q w := by
  -- no file of the directory is named after a window, hence any name goes behind
  have hbehind : ∀ {t active}, StartsAt policy t active →
      active.name ∈ w.names ∨ GoesBehind policy.window w.names active.name := by
    intro t active hstarts
    by_cases hname : active.name ∈ w.names
    · exact .inl hname
    · exact .inr (h.nameSet.goesBehind hstarts.name hname
        (fun v _ m hm u hu => absurd hu (hnone m hm u)) fun _ => .inl rfl)
  have hb : ∀ {t active w'}, StartsAt policy t active → Building active.name 0 w w' →
      Labelled policy w' := fun hstarts hw' => h.building (hbehind hstarts) hw'
  refine wp_createNewActivePartition (hG _ _ _ rfl (.refl _) h)
    (fun t active o w₁ w₂ hstarts ho hw₁ hw₂ => hG _ _ _ ?_ ?_ (hb hstarts hw₂))
    (fun t active w₁ w₂ hstarts hw₁ hhead hu => hG _ _ _ rfl ?_ ?_)
    (fun e active w' _ hstarts hw' => ?_) fun err w' hw' => ?_
  · rcases ho with ho | ⟨ho, -⟩
    · exact isAppend_of_prepares ho
    · exact isAppend_of_onCatalog ho
  · exact GoesBehind.ascends (hbehind hstarts) hw₁.names hw₂.names
  · rw [names_of_files hu.files]
    exact .refl _
  · exact (hb hstarts hw₁).upserted (mem_names_of_headOf hhead) hu
  · obtain ⟨w₁, hw₁, hhead, -, hu⟩ := hw'
    refine hok active w' ((hb hstarts hw₁).upserted (mem_names_of_headOf hhead) hu) ⟨?_, fun hlower => ?_⟩
    · rw [names_of_files hu.files]
      exact mem_names_of_headOf hhead
    · rw [hstarts.ordinal]
      exact (generated_named hstarts.name hlower).1
  · -- it failed before the file was made, or after
    rcases hw' with rfl | ⟨t, active, hstarts, hw'⟩
    · exact herr err w' h
    · exact herr err w' (hb hstarts hw')

/-- **Opening** keeps the invariant at each of its steps; the only file that it may create is the first. -/
theorem Labelled.wp_open (h : Labelled policy w)
    (hG : ∀ (o : StoreOp) w₁ w₂, o.isAppend = false → Ascends w₁.names w₂.names → Labelled policy w₂ →
      C.guarantee o w₁ w₂) :
    wp C (openPartitioned policy) (fun _ w' => Labelled policy w') w := by
  have hstay : ∀ {w'}, Labelled policy w' → ∀ o : StoreOp, o.isAppend = false → C.guarantee o w' w' :=
    fun hw' o ho => hG o _ _ ho (.refl _) hw'
  -- the end of every way through the opening
  have hdone : ∀ (a : ActivePartition) w', Labelled policy w' → Held policy.window w'.names a →
      C.guarantee (.openHandle policy a) w' (w'.held policy a) ∧ Labelled policy (w'.held policy a) := by
    intro a w' hw' ha
    have hheld : Labelled policy (w'.held policy a) := by
      refine hw'.switched ha rfl rfl fun p' a' ha' => ?_
      have hupdate : Function.update w'.handles () (some (policy, a)) () = some (p', a') := ha'
      rw [Function.update_self] at hupdate
      exact (Prod.mk.inj (Option.some.inj hupdate)).2.symm
    exact ⟨hG _ _ _ rfl (.refl _) hheld, hheld⟩
  refine wp_openPartitioned_of (fun o w₁ w₂ ho hw₁ hw₂ => hG o _ _ (isAppend_of_opensCatalog ho) ?_
    (h.of_catalogOpened hw₂)) (fun w₁ hw₁ _ _ => ?_) fun e w' hw' _ => h.of_catalogOpened hw'
  · rw [names_of_files hw₁.files, names_of_files hw₂.files]
    exact .refl _
  have h₁ := h.of_catalogOpened hw₁
  refine wp_initialize_of (hstay h₁) (fun r hr haccepted _ => ?_) (fun _ _ _ => ?_) fun e _ => h₁
  · -- one unsealed range: its file becomes active
    have hmem : r ∈ w₁.ranges := (List.mem_filter.1 (hr ▸ List.mem_singleton_self r)).1
    obtain ⟨v, hv⟩ := haccepted r hmem
    obtain ⟨hpath, hfile⟩ := h₁.listed r hmem
    refine wp_openUnsealed_some (hstay h₁) hv (by rw [hpath]; exact hfile) ?_ fun _ _ => h₁
    exact hdone _ _ h₁ (h₁.held_of_parse hfile hv)
  · rw [wp_bind]
    refine wp_rebuild (hstay h₁) (fun w₂ hread hu => ?_) fun _ _ => h₁
    have h₂ : Labelled policy w₂ :=
      h₁.updated hu fun r hr => ⟨(mem_rebuiltRanges hr).1, (mem_rebuiltRanges hr).2.2⟩
    have hnames := names_of_files hu.files
    refine ⟨hG _ _ _ rfl (by rw [hnames]; exact .refl _) h₂, ?_⟩
    cases hmax : maxRange ((rebuiltRanges w₁ w₁.directory).filter fun r => !r.isSealed) with
    | some r =>
      obtain ⟨hpath, hevent, hfile⟩ := mem_rebuiltRanges (List.mem_filter.1 (mem_of_maxRange hmax)).1
      obtain ⟨v, hv⟩ := (hread r.name hevent hfile).accepted
      rw [← hnames] at hfile
      simp only [hmax]
      refine wp_openUnsealed_some (hstay h₂) hv (by rw [hpath]; exact hfile) ?_ fun _ _ => h₂
      exact hdone _ _ h₂ (h₂.held_of_parse hfile hv)
    | none =>
      simp only [hmax]
      refine h₂.wp_first (fun n hn => ?_) hG (fun a w' hw' ha => hdone a w' hw' ha) fun _ _ hw' => hw'
      rw [hnames] at hn
      exact no_file_of_maxRange hmax n hn

end Open

/-! ## The discipline -/

/-- Rotations go on, and all calls have one policy. -/
def GoesOnNote (policy : RotationPolicy) : LockNote → World Unit → Prop
  | .opening rotation, _ => rotation = policy
  | .rotating rotation nowMs, w => rotation = policy ∧ GoesOn policy nowMs w
  | .appending, _ => True

/-- The calls on one stream with one policy, whatever fails, and stopped at any moment: files are created in
the order of their names. -/
def namedDiscipline [SerdeJson] (policy : RotationPolicy) : Discipline (eventStreams Unit) CallStatus where
  allow _ _ _ := True
  allowWrite := GoesOnNote policy
  restarts := .anytime
  inv := Labelled policy
  always := Labelled policy
  guarantee _ _ w w' := Ascends w.names w'.names
  ghost₀ := CallStatus.ofCall
  ghost o x status := status.after o x

section Discipline

variable {policy : RotationPolicy} {w w' : World Unit}

theorem reads_namedDiscipline [SerdeJson] : Reads (namedDiscipline policy) fun _ => True where
  quiet _ ho x status := CallStatus.after_of_not_append ho x status
  refl _ _ _ _ _ := .refl _
  clock _ _ _ := trivial

/-- An append writes to a file that is there. -/
theorem Labelled.appendStep {p : RotationPolicy} {a : ActivePartition} {expected : ExpectedVersion}
    {events : List NewEvent} {baseTime : OffsetDateTime} {e : StoreEnv}
    {r : Except EsError AppendResult} (h : Labelled policy w) (ha : w.handles () = some (p, a))
    (hstep : AppendStep a.name expected events baseTime e w r w') :
    Labelled policy w' ∧ w'.names = w.names := by
  have hfile := (h.held p a ha).isFile
  cases hstep with
  | @committed d d' head result hd hc =>
    have hnames : (w.setDb (.eventFile a.name) d').names = w.names := by
      refine Set.ext fun n => ?_
      show (w.setDb (.eventFile a.name) d').files.lookup n ≠ none ↔ _
      by_cases hn : n = a.name
      · subst hn
        exact iff_of_true (by simp) hfile
      · rw [World.lookup_setDb_ne hn]
        exact Iff.rfl
    exact ⟨h.of_names hnames h.listed h.held, hnames⟩
  | refused hw hfiles _ =>
    have hnames : w'.names = w.names := Set.ext fun n => by
      show w'.files.lookup n ≠ none ↔ _
      rw [hfiles n]
      exact Iff.rfl
    exact ⟨h.building (.inl hfile) (hw 0), hnames⟩

/-- **The calls create files in the order of their names.** -/
theorem lawful_namedDiscipline [SerdeJson] : (namedDiscipline policy).Lawful AppendPost := by
  refine reads_namedDiscipline.lawful_append rfl rfl (fun _ hw => hw) (fun h => by cases h)
    (fun _ _ hw => hw.restart) (fun rotation w _ _ => ?_) ?_ ?_
  · refine safe_withWrite fun w hw hnote => ?_
    obtain rfl : rotation = policy := hnote
    have hopen : wp ((namedDiscipline rotation).contract .other) (openPartitioned rotation)
        (fun _ w' => Labelled rotation w') w :=
      hw.wp_open fun _ _ _ _ hascends hw' => ⟨hascends, hw'⟩
    exact safe_lift_writing
      ((all_openPartitioned rotation).mono fun o ho =>
        reads_namedDiscipline.quiet o (isAppend_of_isUpkeep (isUpkeep_of_setsHeadTo ho))) hopen
      fun r w' hw' => ⟨rfl, hw', rfl, rfl⟩
  · rintro rotation nowMs status w - hw ⟨rfl, hon⟩
    exact hw.wp_rotate hon fun _ _ _ _ hascends hw' => ⟨hascends, hw'⟩
  · intro expected events baseTime p a e r w w' hw _ ha _ hadm hstep _
    obtain ⟨hw', hnames⟩ := hw.appendStep ha hstep
    refine ⟨?_, hw'⟩
    show Ascends w.names w'.names
    rw [hnames]
    exact .refl _

end Discipline

/-! ## Runs -/

/-- A store without anything. -/
theorem labelled_empty {policy : RotationPolicy} : Labelled policy World.empty where
  nameSet := ⟨fun _ hn => absurd rfl hn, fun _ hn => absurd rfl hn⟩
  listed := fun _ hr => by cases hr
  held := fun _ _ ha => by cases ha

section Runs

variable [SerdeJson] {T : Type} [DecidableEq T] {policy : RotationPolicy} {c : Config (eventStreams Unit) T}
  {tr : List (Label (eventStreams Unit) T × Config (eventStreams Unit) T)} {n n' : Text}

/-- All calls have one policy, and no rotation takes the write lock to go to a label that begins before that
of a file that is there. Any step may fail, and the process may stop at any moment. -/
def RotatesOn (policy : RotationPolicy) (c : Config (eventStreams Unit) T) :
    Label (eventStreams Unit) T → Prop
  | .acquireWrite _ _ note => GoesOnNote policy note c.st
  | _ => True

omit [DecidableEq T] in
theorem permits_of_rotatesOn {l : Label (eventStreams Unit) T} (h : RotatesOn policy c l) :
    (namedDiscipline policy).Permits c l := by
  cases l with
  | acquireWrite t hd note => exact h
  | _ => trivial

/-- Both files are there at the end of the run, and at one moment of it only the first one. -/
def CreatedBefore (c : Config (eventStreams Unit) T)
    (tr : List (Label (eventStreams Unit) T × Config (eventStreams Unit) T)) (n n' : Text) : Prop :=
  n' ∈ (lastOf c tr).st.names ∧
    ∃ tr₁ tr₂, tr = tr₁ ++ tr₂ ∧ n ∈ (lastOf c tr₁).st.names ∧ n' ∉ (lastOf c tr₁).st.names

/-- By induction on the run: the step that creates the file finds the earlier one there. -/
theorem lt_of_created {g : T → CallStatus} (hs : (namedDiscipline policy).Sound AppendPost c g)
    (hrun : IsRun (RotatesOn policy) c tr) {v v' : Int × Option Nat} (hv : Named n v) (hv' : Named n' v')
    (hn : n ∈ c.st.names) (hnot : n' ∉ c.st.names) (hlast : n' ∈ (lastOf c tr).st.names) : n < n' := by
  induction tr generalizing c g with
  | nil => exact absurd hlast hnot
  | cons x tr ih =>
    obtain ⟨l, c₁⟩ := x
    obtain ⟨hstep, hon, hrest⟩ := hrun
    have hpermits := permits_of_rotatesOn hon
    by_cases hnew : n' ∈ c₁.st.names
    · have hascends : Ascends c.st.names c₁.st.names := by
        cases hstep with
        | op t hd call o k e ht => exact (hs.guarantee (.op t hd call o k e ht) hpermits).1
        | _ => exact .refl _
      exact hascends n' hnew hnot v' hv' n hn v hv
    · exact ih (sound_step lawful_namedDiscipline hs hstep hpermits) hrest (files_kept hstep hn) hnew hlast

theorem CreatedBefore.lt (h : CreatedBefore (Config.idle T World.empty) tr n n')
    (hrun : IsRun (RotatesOn policy) (Config.idle T World.empty) tr) {v v' : Int × Option Nat}
    (hv : Named n v) (hv' : Named n' v') : n < n' := by
  obtain ⟨hlast, tr₁, tr₂, rfl, hn, hnot⟩ := h
  obtain ⟨hrun₁, hrun₂⟩ := hrun.of_append
  rw [lastOf_append] at hlast
  have hs := sound_run lawful_namedDiscipline (fun _ _ => permits_of_rotatesOn)
    (sound_idle lawful_namedDiscipline labelled_empty fun _ => .other) hrun₁
  exact lt_of_created hs hrun₂ hv hv' hn hnot hlast

end Runs

section Computed

variable [SerdeJson] {T : Type} [DecidableEq T] {c : Config (eventStreams Unit) T}
  {tr : List (Label (eventStreams Unit) T × Config (eventStreams Unit) T)}

end Computed

attribute [local instance] SerdeJson.limited

end Events
