import Events.WorkflowRuns

/-!
# Reading along with the appends

A consumer asks for the events after the last one it has got. Its read holds no lock: it takes the
ranges from the catalog and then queries one file after the other, while events are appended and files
are rotated. The ranges are tiles at every moment, so only the newest of those it has found may get more
events meanwhile, and those follow the ones that were there.

* **`StillToRead`** — what the rest of a read will give, wherever the store has got to.
* **`StillToRead.grow`** — it survives what the other calls do.
* **`observes_loadAfterVersion`** — an answer is a run of events behind the cursor, without a gap.
* **`consumer_misses_nothing`** — the result on runs.
-/

namespace Events

open Proc Program Discipline

/-! ## Blocks of a store that grows -/

section Growing

variable {w w' : World Unit} {r : EventFileRange} {m : Nat}

/-- The range has a successor: nothing is added to its file any more. -/
def Settled (w : World Unit) (r : EventFileRange) : Prop :=
  ∃ r' ∈ w.ranges.dropLast, r'.name = r.name

/-- The range is the newest one. -/
def IsNewest (w : World Unit) (r : EventFileRange) : Prop :=
  ∃ r', w.ranges.getLast? = some r' ∧ r'.name = r.name

/-- The events behind the cursor in a file. -/
abbrev after (m : Nat) (w : World Unit) (r : EventFileRange) : List EventRow :=
  block (AfterCursor m) w r.name

theorem Settled.grow (h : Settled w r) (hg : Grows w w') : Settled w' r := by
  obtain ⟨r', hr', hname⟩ := h
  exact ⟨r', (hg.old r' hr').1, hname⟩

theorem Settled.after_eq (h : Settled w r) (hg : Grows w w') : after m w' r = after m w r := by
  obtain ⟨r', hr', hname⟩ := h
  have hrows := (hg.old r' hr').2
  rw [hname] at hrows
  unfold after block
  rw [hrows]

theorem drop_versionsFrom {l : List EventEnvelope} {p : Int} {n : Nat}
    (h : l.map (fun e => e.version.get) = versionsFrom p n) (m : Nat) :
    l.filter (fun e => p + m < e.version.get) = l.drop m := by
  induction l generalizing p n m with
  | nil => simp
  | cons e l ih =>
    cases n with
    | zero => cases h
    | succ n =>
      obtain ⟨he, hl⟩ := List.cons.inj h
      cases m with
      | zero =>
        have hall : ∀ e' ∈ e :: l, p + (0 : Nat) < e'.version.get := by
          intro e' he'
          have hmem : e'.version.get ∈ versionsFrom p (n + 1) := by
            rw [← h]
            exact List.mem_map_of_mem he'
          have := (mem_versionsFrom.1 hmem).1
          omega
        rw [List.filter_eq_self.2 fun e' he' => decide_eq_true (hall e' he'), List.drop_zero]
      | succ m =>
        have hrest := ih hl m
        have hversion : e.version.get = p + 1 := he
        have hbelow : ¬p + ((m + 1 : Nat) : Int) < e.version.get := by omega
        rw [List.drop_succ_cons, ← hrest, List.filter_cons_of_neg (by simpa using hbelow)]
        congr 1
        funext e'
        congr 1
        rw [show p + 1 + (m : Int) = p + ((m + 1 : Nat) : Int) by omega]

/-- The events behind the cursor. -/
theorem Ledger.drop_eq (hl : Ledger w) (m : Nat) :
    (w.log.map EventEnvelope.toRow).filter (AfterCursor m) =
      (w.log.drop m).map EventEnvelope.toRow := by
  have hdrop := drop_versionsFrom hl.versions m
  rw [List.filter_map, ← hdrop]
  congr 1
  refine List.filter_congr fun e _ => ?_
  show decide (AfterCursor m e.toRow) = decide (0 + (m : Int) < e.version.get)
  refine decide_eq_decide.2 ?_
  rw [zero_add]
  rfl

/-- **The newest file** gets the events that follow. -/
theorem after_newest (ht : Tiled w) (ht' : Tiled w') (hm : m ≤ w.log.length)
    {j : Nat} (hrows : w'.rowsOf r.name =
      w.rowsOf r.name ++ ((w'.log.drop w.log.length).take j).map EventEnvelope.toRow) :
    after m w' r = after m w r ++ ((w'.log.drop w.log.length).take j).map EventEnvelope.toRow := by
  set more := ((w'.log.drop w.log.length).take j).map EventEnvelope.toRow
  have hsub : more.Sublist ((w'.log.map EventEnvelope.toRow).filter (AfterCursor w.log.length)) := by
    rw [ht'.toLedger.drop_eq]
    exact (List.take_sublist _ _).map _
  have hlater : ∀ row ∈ more, (w.log.length : Int) < row.version := fun row hrow => by
    have hafter := (List.mem_filter.1 (hsub.subset hrow)).2
    exact of_decide_eq_true (p := AfterCursor w.log.length row) hafter
  refine Tiles.eq_of_perm_of_pairwise_lt EventRow.version ?_ (ht'.toLedger.pairwise_block r.name) ?_
  · unfold after block
    rw [hrows, List.filter_append]
    have hall : more.filter (fun row => AfterCursor m row) = more := by
      refine List.filter_eq_self.2 fun row hrow => decide_eq_true ?_
      have := hlater row hrow
      show (m : Int) < row.version
      omega
    rw [hall]
    exact (List.perm_insertionSort _ _).trans
      ((List.perm_insertionSort _ _).symm.append_right _)
  · rw [List.pairwise_append]
    refine ⟨ht.toLedger.pairwise_block r.name, ?_, fun row hrow row' hrow' => ?_⟩
    · exact ht'.toLedger.pairwise.sublist (hsub.trans List.filter_sublist)
    · have hle := ht.toLedger.version_le (World.rowsOf_subset (mem_block.1 hrow).1)
      have hlt := hlater row' hrow'
      omega

/-! ## The rest of a read -/

/-- The events that the read has got so far, and what the files that it has still to ask hold behind the
cursor, are a run of events behind the cursor. They are all of them, as long as the newest file is
still to be asked. -/
def StillToRead (m : Nat) (events : List EventEnvelope) (rest : List EventFileRange)
    (w : World Unit) : Prop :=
  ∃ more, (rest.flatMap fun r => after m w r) = more.map EventEnvelope.toRow ∧
    events ++ more <+: w.log.drop m ∧
    ((∀ r ∈ rest, Settled w r) ∨
      ∃ before r behind, rest = before ++ r :: behind ∧ (∀ x ∈ before ++ behind, Settled w x) ∧
        IsNewest w r ∧ (∀ x ∈ behind, after m w x = []) ∧
        w.log.length = m + (events ++ more).length)

theorem prefix_drop {l l' l'' : List EventEnvelope} (h : l <+: l'.drop m) (hl : l' <+: l'') :
    l <+: l''.drop m := by
  obtain ⟨s, rfl⟩ := hl
  refine h.trans ?_
  rw [List.drop_append]
  exact List.prefix_append _ _

/-- **What is still to read** survives what the others do. -/
theorem StillToRead.grow {events : List EventEnvelope} {rest : List EventFileRange} (ht : Tiled w)
    (ht' : Tiled w') (hg : Grows w w') (h : StillToRead m events rest w) :
    StillToRead m events rest w' := by
  obtain ⟨more, hmore, hpre, hrest⟩ := h
  rcases hrest with hsettled | ⟨before, r, behind, rfl, hsettled, ⟨rn, hrn, hname⟩, hbehind, hall⟩
  · -- settled ranges have all their events
    refine ⟨more, ?_, prefix_drop hpre hg.log, .inl fun r hr => (hsettled r hr).grow hg⟩
    rw [← hmore]
    exact List.flatMap_congr fun r hr => (hsettled r hr).after_eq hg
  · -- the newest file gets the events that follow
    obtain ⟨j, hrows, hnext⟩ := hg.newest rn hrn
    rw [hname] at hrows hnext
    have hm : m ≤ w.log.length := by omega
    have hgrown := after_newest ht ht' hm hrows
    have hbehind' : ∀ x ∈ behind, after m w' x = [] := fun x hx => by
      rw [(hsettled x (List.mem_append_right _ hx)).after_eq hg]
      exact hbehind x hx
    have hnone : ∀ {v : World Unit}, (∀ x ∈ behind, after m v x = []) →
        (behind.flatMap fun x => after m v x) = [] := fun hv => List.flatMap_eq_nil_iff.2 hv
    have hbefore : (before.flatMap fun x => after m w' x) = before.flatMap fun x => after m w x :=
      List.flatMap_congr fun x hx => (hsettled x (List.mem_append_left _ hx)).after_eq hg
    -- what the file has got since
    set growth := (w'.log.drop w.log.length).take j
    have hsplit : w'.log.drop m = (events ++ more) ++ w'.log.drop w.log.length := by
      obtain ⟨s, hs⟩ := hg.log
      obtain ⟨s', hs'⟩ := hpre
      have hs'nil : s' = [] := by
        have hlen := congrArg List.length hs'
        rw [List.length_append, List.length_drop] at hlen
        exact List.length_eq_zero_iff.1 (by omega)
      rw [hs'nil, List.append_nil] at hs'
      rw [← hs, List.drop_append_of_le_length hm, ← hs', List.drop_left]
    refine ⟨more ++ growth, ?_, ?_, ?_⟩
    · rw [List.flatMap_append, List.flatMap_cons, hnone hbehind, List.append_nil] at hmore
      rw [List.flatMap_append, List.flatMap_cons, hnone hbehind', List.append_nil, hbefore, hgrown,
        List.map_append, ← hmore, List.append_assoc]
    · rw [hsplit, ← List.append_assoc]
      exact (List.prefix_append_right_inj _).2 (List.take_prefix _ _)
    · have hold : ∀ x ∈ before ++ behind, Settled w' x := fun x hx => (hsettled x hx).grow hg
      -- the newest range is another one by now, or still this one
      rcases hnext with ⟨r', hr', hname'⟩ | ⟨r', hr', hname', hlen⟩
      · refine .inl fun x hx => ?_
        rcases List.mem_append.1 hx with hx | hx
        · exact hold x (List.mem_append_left _ hx)
        · rcases List.mem_cons.1 hx with rfl | hx
          · exact ⟨r', hr', hname'⟩
          · exact hold x (List.mem_append_right _ hx)
      · refine .inr ⟨before, r, behind, rfl, hold, ⟨r', hr', hname'⟩, hbehind', ?_⟩
        have hlog := hg.log.length_le
        have hgrowth : growth.length = min j (w'.log.length - w.log.length) := by
          rw [List.length_take, List.length_drop]
        rw [← List.append_assoc, List.length_append, hgrowth]
        omega

/-- **What the catalog has answered** is all there is to read behind the cursor. -/
theorem StillToRead.start (ht : Tiled w) (hm : m ≤ w.log.length) :
    StillToRead m [] ((rangesAfter m w.ranges).insertionSort rangeLe) w := by
  obtain ⟨hnodup, hasked, hsorted⟩ := ht.asked m
  set asked := (rangesAfter m w.ranges).insertionSort rangeLe
  obtain ⟨init, rn, hinit, -⟩ := ht.newest
  have hmem : ∀ r ∈ asked, r ∈ w.ranges := fun r hr => List.mem_of_mem_filter ((hasked r).1 hr)
  have hold : ∀ r ∈ w.ranges, r ≠ rn → r ∈ init := by
    intro r hr hne
    rw [hinit] at hr
    rcases List.mem_append.1 hr with hr | hr
    · exact hr
    · exact absurd (List.mem_singleton.1 hr) hne
  have hsettled : ∀ r ∈ asked, r ≠ rn → Settled w r := by
    refine fun r hr hne => ⟨r, ?_, rfl⟩
    rw [hinit, List.dropLast_concat]
    exact hold r (hmem r hr) hne
  -- a range that the catalog leaves out holds nothing behind the cursor
  have hrest : ∀ r ∈ w.ranges, r ∉ asked → r ≠ rn → ∀ row ∈ w.rowsOf r.name,
      ¬AfterCursor m row := by
    intro r hr hnot hne row hrow hlt
    have hle := ht.pruned_old hinit (hold r hr hne) (fun h => hnot ((hasked r).2 h)) hrow
    omega
  have horder : ∀ r ∈ init, r.firstVersion ≤ rn.firstVersion ∧
      ∀ row ∈ w.rowsOf r.name, row.version < rn.firstVersion := by
    have hpairs := ht.order
    rw [hinit, List.pairwise_append] at hpairs
    exact fun r hr => hpairs.2.2 r hr rn (by simp)
  -- the newest range is left out only where it was sealed at the end of the log
  by_cases hrn : rn ∈ asked
  · have hall := ht.flatMap_sorted (P := AfterCursor m) hnodup hmem hsorted fun r hr hnot =>
      hrest r hr hnot fun heq => hnot (heq ▸ hrn)
    rw [ht.toLedger.drop_eq] at hall
    refine ⟨w.log.drop m, hall, List.prefix_refl _, .inr ?_⟩
    obtain ⟨before, behind, heq⟩ := List.append_of_mem hrn
    rw [heq] at hnodup hsorted
    obtain ⟨-, hcons, hdisjoint⟩ := List.nodup_append.1 hnodup
    obtain ⟨hbehind, -⟩ := List.nodup_cons.1 hcons
    have hne : ∀ x ∈ before ++ behind, x ≠ rn := by
      rintro x hx rfl
      rcases List.mem_append.1 hx with hx | hx
      · exact hdisjoint x hx x (List.mem_cons_self ..) rfl
      · exact hbehind hx
    have hin : ∀ x ∈ before ++ behind, x ∈ asked := fun x hx => by
      rw [heq]
      rcases List.mem_append.1 hx with hx | hx
      · exact List.mem_append_left _ hx
      · exact List.mem_append_right _ (List.mem_cons_of_mem _ hx)
    refine ⟨before, rn, behind, heq, fun x hx => hsettled x (hin x hx) (hne x hx),
      ⟨rn, by rw [hinit, List.getLast?_concat], rfl⟩, fun x hx => ?_, ?_⟩
    · -- a file that is asked behind the newest one is empty
      have hx' := List.mem_append_right before hx
      have hle : rn.firstVersion ≤ x.firstVersion :=
        (List.pairwise_cons.1 (List.pairwise_append.1 hsorted).2.1).1 x hx
      have hmemx := hmem x (hin x hx')
      refine List.eq_nil_iff_forall_not_mem.2 fun row hrow => ?_
      have hrow' := (mem_block.1 hrow).1
      have hlt := (horder x (hold x hmemx (hne x hx'))).2 row hrow'
      have hge := ht.laid.lower x hmemx row hrow'
      omega
    · rw [List.nil_append, List.length_drop]
      omega
  · -- the newest file is not asked: its range was sealed, and nothing in it is behind the cursor
    have hmemn : rn ∈ w.ranges := by rw [hinit]; simp
    have hnodup' : (asked ++ [rn]).Nodup := by
      rw [List.nodup_append]
      refine ⟨hnodup, List.nodup_singleton _, fun x hx y hy heq => ?_⟩
      rw [heq, List.mem_singleton.1 hy] at hx
      exact hrn hx
    have hmem' : ∀ r ∈ asked ++ [rn], r ∈ w.ranges := by
      intro r hr
      rcases List.mem_append.1 hr with hr | hr
      · exact hmem r hr
      · rw [List.mem_singleton.1 hr]
        exact hmemn
    have hsorted' : (asked ++ [rn]).Pairwise fun r r' => r.firstVersion ≤ r'.firstVersion := by
      rw [List.pairwise_append]
      refine ⟨hsorted, List.pairwise_singleton _ _, fun x hx y hy => ?_⟩
      rw [List.mem_singleton.1 hy]
      exact (horder x (hold x (hmem x hx) fun heq => hrn (heq ▸ hx))).1
    have hall := ht.flatMap_sorted (P := AfterCursor m) hnodup' hmem' hsorted' fun r hr hnot =>
      hrest r hr (fun h => hnot (List.mem_append_left _ h)) fun heq => hnot (by rw [heq]; simp)
    rw [ht.toLedger.drop_eq, List.flatMap_append] at hall
    obtain ⟨more, tail, hsplit, hmore, -⟩ := List.append_eq_map_iff.1 hall
    refine ⟨more, hmore.symm, ?_, .inl fun r hr => hsettled r hr fun heq => hrn (heq ▸ hr)⟩
    rw [hsplit]
    exact List.prefix_append _ _

/-- **The next file** gives a part of the rest, and no event is left out unless the limit is reached. -/
theorem StillToRead.next [SerdeJson] {stored more : List EventEnvelope} {r : EventFileRange}
    {rest : List EventFileRange} {n : Nat} (ht : Tiled w) (h : StillToRead m stored (r :: rest) w)
    (hmore : collectEventsFromRows ((after m w r).take n) = .ok more) :
    ∃ here, ReadAs here more ∧ stored ++ here <+: w.log.drop m ∧
      ((after m w r).length ≤ n → StillToRead m (stored ++ here) rest w) := by
  obtain ⟨all, hall, hpre, hwhere⟩ := h
  rw [List.flatMap_cons] at hall
  obtain ⟨here, later, rfl, hhere, hlater⟩ := List.append_eq_map_iff.1 hall
  have hstorable : ∀ e ∈ here.take n, e.Storable := by
    intro e he
    refine ht.storable e (List.mem_of_mem_drop (hpre.subset ?_))
    exact List.mem_append_right _ (List.mem_append_left _ (List.mem_of_mem_take he))
  have hread : ReadAs (here.take n) more :=
    (collectEventsFromRows_stored hstorable).1 (by rw [List.map_take, hhere]; exact hmore)
  rw [← List.append_assoc] at hpre
  refine ⟨here.take n, hread, ((List.prefix_append_right_inj _).2 (List.take_prefix _ _)).trans
    ((List.prefix_append _ _).trans hpre), fun hlen => ?_⟩
  have htake : here.take n = here := by
    rw [← hhere, List.length_map] at hlen
    exact List.take_of_length_le hlen
  rw [htake]
  refine ⟨later, hlater.symm, hpre, ?_⟩
  rcases hwhere with hsettled | ⟨before, r', behind, heq, hsettled, hnewest, hbehind, hlog⟩
  · exact .inl fun x hx => hsettled x (List.mem_cons_of_mem _ hx)
  · cases before with
    | nil =>
      obtain ⟨rfl, rfl⟩ := List.cons.inj heq
      exact .inl fun x hx => hsettled x hx
    | cons x before =>
      obtain ⟨rfl, rfl⟩ := List.cons.inj heq
      refine .inr ⟨before, r', behind, rfl, fun y hy => hsettled y (List.mem_cons_of_mem _ hy),
        hnewest, hbehind, ?_⟩
      rw [← List.append_assoc] at hlog
      exact hlog

end Growing

/-! ## What a read observes -/

section Observe

variable {w : World Unit} {m : Nat}

/-- The others keep the tiles, and let them grow. -/
def growing [SerdeJson] : Rely (eventStreams Unit) where
  rel w w' := Tiled w → Tiled w' ∧ Grows w w'
  allow _ _ _ _ := True
  trans h h' ht :=
    have h₁ := h ht
    have h₂ := h' h₁.1
    ⟨h₂.1, h₁.2.trans h₂.2⟩

theorem growing_refl [SerdeJson] (w : World Unit) : growing.rel w w := fun ht => ⟨ht, .refl w⟩

/-- The rows that a query of a file answers. -/
theorem step_queryEvents {path : Text} {cursor : Int} {n : Nat} {e : StoreEnv} {rows : List EventRow}
    (h : (World.step () (.sql (.eventFile path) (.queryEventsAfterVersion cursor n)) e w).1 = .ok rows) :
    rows = (block (AfterCursor cursor) w path).take n := by
  simp only [World.step, World.stepSql] at h
  split at h
  · cases h
  · cases h
  · rename_i d hfault hd
    cases hex : (Stmt.queryEventsAfterVersion cursor n).exec d with
    | error err =>
      rw [hex] at h
      cases h
    | ok r =>
      rw [hex] at h
      obtain ⟨rows', hrows, hr, -⟩ := Stmt.exec_queryEvents.1 hex
      obtain rfl : r.1 = rows := by simpa using h
      have hlookup : w.files.lookup path = some d := hd
      have hrowsOf : w.rowsOf path = rows' := by rw [World.rowsOf, hlookup]; simp [Db.rows, hrows]
      rw [← hr, block, hrowsOf]

/-- The ranges that the catalog answers. -/
theorem step_getRangesAfter {version : Int} {e : StoreEnv} {ranges : List EventFileRange}
    (h : (World.step () (.sql .catalog (.getEventFileRangesAfterVersion version)) e w).1 = .ok ranges) :
    ranges = (rangesAfter version w.ranges).insertionSort rangeLe := by
  simp only [World.step, World.stepSql] at h
  split at h
  · cases h
  · cases h
  · rename_i d hfault hd
    cases hex : (Stmt.getEventFileRangesAfterVersion version).exec d with
    | error err =>
      rw [hex] at h
      cases h
    | ok r =>
      rw [hex] at h
      obtain ⟨rs, hrs, hr, -⟩ := Stmt.exec_getRangesAfter.1 hex
      obtain rfl : r.1 = ranges := by simpa using h
      have hcat : w.catalog = some d := hd
      have hranges : w.ranges = rs := by simp [World.ranges, hcat, hrs]
      rw [← hr, hranges]
      rfl

/-- A query of a file: the rows are those of some moment. -/
theorem observes_query [SerdeJson] {path : Text} {n : Nat}
    {Q : Except Abort (List EventEnvelope) → World Unit → Prop} (herr : ∀ e w', Q (.error e) w')
    (hok : ∀ w₁ more, growing.rel w w₁ →
      collectEventsFromRows ((block (AfterCursor m) w₁ path).take n) = .ok more →
      ∀ w', growing.rel w₁ w' → Q (.ok more) w') :
    growing.observes () (queryPartitionEventsAfterVersion path m n).lift Q w := by
  intro w₁ hw₁ e _
  rw [step_passive (o := .getConnection _) rfl]
  cases (World.step () (.getConnection (.eventFile path)) e w₁).1 with
  | error err => exact fun w' _ => herr _ w'
  | ok u =>
    intro w₂ hw₂ e _
    rw [step_passive (o := .sql _ _) rfl]
    generalize hrows : (World.step () (.sql (.eventFile path) (.queryEventsAfterVersion m n)) e w₂).1 = r
    cases r with
    | error err => exact fun w' _ => herr _ w'
    | ok rows =>
      have hblock := step_queryEvents hrows
      show growing.observes () (ofExcept (collectEventsFromRows rows)).lift Q w₂
      cases hdecode : collectEventsFromRows rows with
      | error err => exact fun w' _ => herr _ w'
      | ok more =>
        rw [hblock] at hdecode
        exact hok w₂ more (growing.trans hw₁ hw₂) hdecode

/-- The answer of a read is a run of events behind the cursor. -/
def Follows [SerdeJson] (m : Nat) (r : Except Abort (List EventEnvelope)) (w : World Unit) : Prop :=
  ∀ events, r = .ok events → Tiled w ∧ ∃ stored, ReadAs stored events ∧ stored <+: w.log.drop m

/-- **The loop**, by induction on the files that are still to be asked. -/
theorem observes_loadFromRanges [SerdeJson] {limit : Nat} {rest : List EventFileRange}
    {stored events : List EventEnvelope} (hpath : ∀ r ∈ rest, r.path = r.name) (ht : Tiled w)
    (hread : ReadAs stored events) (hlen : events.length ≤ limit)
    (hstill : StillToRead m stored rest w ∨ (events.length = limit ∧ stored <+: w.log.drop m)) :
    growing.observes () (loadFromRanges (fun path remaining =>
      queryPartitionEventsAfterVersion path m remaining) limit rest events).lift (Follows m) w := by
  have hdone : ∀ w', growing.rel w w' → Follows m (.ok events) w' := by
    rintro w' hw' _ ⟨⟩
    refine ⟨(hw' ht).1, stored, hread, prefix_drop ?_ (hw' ht).2.log⟩
    rcases hstill with ⟨more, -, hpre, -⟩ | ⟨-, hpre⟩
    · exact (List.prefix_append _ _).trans hpre
    · exact hpre
  induction rest generalizing stored events w with
  | nil => exact hdone
  | cons r rest ih =>
    rw [loadFromRanges, if_neg (by omega)]
    -- the loop stops at the limit, or asks the next file for what is left of it
    by_cases hfull : limit - events.length = 0
    · rw [if_pos hfull]
      exact hdone
    · rw [if_neg hfull, bind_eq, lift_bind]
      have hahead : StillToRead m stored (r :: rest) w := by
        rcases hstill with hstill | ⟨heq, -⟩
        · exact hstill
        · omega
      refine Rely.observes_bind (P := fun q w' => ∀ more, q = .ok more → Tiled w' ∧
        (events ++ more).length ≤ limit ∧ ∃ here, ReadAs here more ∧
          (StillToRead m (stored ++ here) rest w' ∨
            ((events ++ more).length = limit ∧ stored ++ here <+: w'.log.drop m)))
        (observes_query (fun _ _ _ h => by cases h) ?_) growing_refl ?_ ?_
      · rintro w₁ more hw₁ hdecode w' hw' _ ⟨⟩
        obtain ⟨ht₁, hg₁⟩ := hw₁ ht
        obtain ⟨ht', hg'⟩ := hw' ht₁
        rw [hpath r (by simp)] at hdecode
        obtain ⟨here, hhere, hpre, hnext⟩ := (hahead.grow ht ht₁ hg₁).next ht₁ hdecode
        have hmore : more.length = min (limit - events.length) (after m w₁ r).length := by
          rw [length_of_collectEventsFromRows hdecode, List.length_take]
        refine ⟨ht', by rw [List.length_append]; omega, here, hhere, ?_⟩
        -- the file had no more than was asked for, or the answer is full
        by_cases hshort : (after m w₁ r).length ≤ limit - events.length
        · exact .inl ((hnext hshort).grow ht₁ ht' hg')
        · refine .inr ⟨?_, prefix_drop hpre hg'.log⟩
          rw [List.length_append]
          omega
      · intro more w' hmore
        obtain ⟨ht', hlen', here, hhere, hstill'⟩ := hmore more rfl
        have hread' := hread.append hhere
        refine ih (fun r' hr' => hpath r' (List.mem_cons_of_mem _ hr')) ht' hread' hlen' hstill' ?_
        rintro w'' hw'' _ ⟨⟩
        refine ⟨(hw'' ht').1, _, hread', prefix_drop ?_ (hw'' ht').2.log⟩
        rcases hstill' with ⟨later, -, hpre, -⟩ | ⟨-, hpre⟩
        · exact (List.prefix_append _ _).trans hpre
        · exact hpre
      · exact fun e w' _ events h => by cases h

/-- **A read along with the appends** answers events that follow its cursor, without a gap. -/
theorem observes_loadAfterVersion [SerdeJson] {cursor : EventStreamVersion} {limit : Nat} (ht : Tiled w)
    (hcursor : cursor.get = m) (hm : m ≤ w.log.length) :
    growing.observes () (loadAfterVersion cursor limit).lift (Follows m) w := by
  unfold loadAfterVersion loadWith
  rw [hcursor]
  cases validateReadLimit limit with
  | error err => exact fun w' _ events h => by cases h
  | ok u =>
    intro w₁ hw₁ e _
    rw [step_passive (o := .getConnection _) rfl]
    cases (World.step () (.getConnection .catalog) e w₁).1 with
    | error err => exact fun w' _ events h => by cases h
    | ok u =>
      intro w₂ hw₂ e _
      rw [step_passive (o := .sql _ _) rfl]
      generalize hranges :
        (World.step () (.sql .catalog (.getEventFileRangesAfterVersion m)) e w₂).1 = r
      cases r with
      | error err => exact fun w' _ events h => by cases h
      | ok ranges =>
        obtain ⟨ht₂, hg₂⟩ := growing.trans hw₁ hw₂ ht
        have hasked := step_getRangesAfter hranges
        subst hasked
        have hm₂ : m ≤ w₂.log.length := hm.trans hg₂.log.length_le
        have hpath : ∀ r ∈ (rangesAfter m w₂.ranges).insertionSort rangeLe, r.path = r.name :=
          fun r hr => ht₂.path r (List.mem_of_mem_filter ((ht₂.asked m).2.1 r |>.1 hr))
        show growing.observes () ((loadFromRanges _ limit _ []).bind _).lift _ w₂
        rw [lift_bind]
        refine Rely.observes_bind (Rely.observes_closed (observes_loadFromRanges hpath ht₂
          .nil (Nat.zero_le limit) (.inl (.start ht₂ hm₂)))) growing_refl (fun events w₃ hevents => ?_) ?_
        · rintro w' hw' _ ⟨⟩
          obtain ⟨ht', stored, hread, hpre⟩ := hevents w' hw' events rfl
          refine ⟨ht', stored.take limit, ?_, (List.take_prefix _ _).trans hpre⟩
          -- the events came in version order already
          have hpairs := List.pairwise_map.1 ht'.toLedger.pairwise
          rw [hread.sorted ((hpairs.sublist (List.drop_sublist m _)).sublist hpre.sublist)]
          exact List.forall₂_take limit hread
        · exact fun e w' _ events h => by cases h

end Observe

/-! ## A consumer -/

section Consumer

variable [SerdeJson] {T : Type} [DecidableEq T] {t : T} {received : List EventEnvelope}
  {c c' : Config (eventStreams Unit) T} {l : Label (eventStreams Unit) T}

/-- The cursor of a consumer: the version of the last event it has got. -/
def cursorAfter (received : List EventEnvelope) : EventStreamVersion :=
  match received.getLast? with
  | none => .start
  | some e => e.version

/-- What the consumer `t` has got. -/
def receive (t : T) : Label (eventStreams Unit) T → List EventEnvelope → List EventEnvelope
  | .respond u _ (.loadAfterVersion _ _ _) (.ok (.loaded events)), received =>
    if u = t then received ++ events else received
  | _, received => received

/-- The consumer reads on from its cursor, with any limit. -/
def Consumes (t : T) (received : List EventEnvelope) (_ : Config (eventStreams Unit) T) :
    Label (eventStreams Unit) T → Prop
  | .invoke u _ made =>
    u = t → ∃ rotation limit, made = .loadAfterVersion rotation (cursorAfter received) limit
  | _ => True

omit [SerdeJson] in
theorem versionsFrom_prefix {l l' : List EventEnvelope} {p : Int} {n : Nat}
    (h : l.map (fun e => e.version.get) = versionsFrom p n) (hl : l' <+: l) :
    l'.map (fun e => e.version.get) = versionsFrom p l'.length := by
  obtain ⟨s, rfl⟩ := hl
  have hlen : n = l'.length + s.length := by
    have hlength := congrArg List.length h
    rw [List.length_map, List.length_append, length_versionsFrom] at hlength
    exact hlength.symm
  rw [hlen, versionsFrom_add, List.map_append] at h
  refine (List.append_inj h ?_).1
  rw [List.length_map, length_versionsFrom]

/-- What the consumer has got has the first versions. -/
theorem versions_received {w : World Unit} {stored : List EventEnvelope} (hl : Ledger w)
    (hread : ReadAs stored received) (h : stored <+: w.log) :
    received.map (fun e => e.version.get) = versionsFrom 0 received.length := by
  rw [hread.versions, ← hread.length_eq]
  exact versionsFrom_prefix hl.versions h

/-- The cursor counts what the consumer has got. -/
theorem cursorAfter_get {w : World Unit} {stored : List EventEnvelope} (hl : Ledger w)
    (hread : ReadAs stored received) (h : stored <+: w.log) :
    (cursorAfter received).get = received.length := by
  have hversions := versions_received hl hread h
  unfold cursorAfter
  rcases List.eq_nil_or_concat received with rfl | ⟨init, e, rfl⟩
  · rfl
  · rw [List.concat_eq_append] at hversions ⊢
    rw [List.getLast?_concat]
    rw [List.length_append, List.length_singleton, versionsFrom_add, List.map_append] at hversions
    have hlast := (List.append_inj' hversions rfl).2
    have hversion : e.version.get = 0 + (init.length : Int) + 1 := (List.cons.inj hlast).1
    show e.version.get = _
    rw [hversion, List.length_append, List.length_singleton]
    push_cast
    omega

/-- The answer of a read follows its cursor. -/
def Answered (_ : Unit) (call : StreamCall) (r : Except Abort StreamAns) (w : World Unit) : Prop :=
  ∀ rotation cursor limit events, call = .loadAfterVersion rotation cursor limit →
    r = .ok (.loaded events) → ∀ m : Nat, cursor.get = m →
      ∃ stored, ReadAs stored events ∧ stored <+: w.log.drop m

theorem observes_load_call {rotation : RotationPolicy} {cursor : EventStreamVersion} {limit m : Nat}
    {w : World Unit} (ht : Tiled w) (hcursor : cursor.get = m) (hm : m ≤ w.log.length) :
    growing.observes () (StreamCall.loadAfterVersion rotation cursor limit).code
      (Answered () (.loadAfterVersion rotation cursor limit)) w := by
  refine Rely.observes_bind (Rely.observes_closed (observes_loadAfterVersion ht hcursor hm))
    growing_refl (fun events w' hw' => ?_) fun e w' _ => ?_
  · rintro w'' hw'' _ _ _ _ ⟨⟩ ⟨⟩ m' hm'
    obtain rfl : m = m' := by
      rw [hcursor] at hm'
      exact Int.ofNat.inj hm'
    exact (hw' w'' hw'' events rfl).2
  · intro _ _ _ _ _ h
    cases h

/-- What holds at every moment of a run with the consumer `t`. -/
structure Consuming (t : T) (received : List EventEnvelope) (c : Config (eventStreams Unit) T) :
    Prop where
  sound : ∃ g, (tiledDiscipline False).Sound AppendPost c g
  got : ∃ stored, ReadAs stored received ∧ stored <+: c.st.log
  calls : ∀ task, c.tasks t = some task →
    ∃ rotation limit, task.call = .loadAfterVersion rotation (cursorAfter received) limit
  observed : growing.Observed Answered (fun u => u = t) c

/-- A step lets the tiles grow. -/
theorem Consuming.grows (h : Consuming t received c) (hstep : Step c l c')
    (hnew : RotatesToNewFiles c l) : growing.rel c.st c'.st ∧
      ∃ g, (tiledDiscipline False).Sound AppendPost c' g := by
  obtain ⟨g, hs⟩ := h.sound
  have hpermits : (tiledDiscipline False).Permits c l := by
    cases l <;> first | exact hnew | trivial | exact False.elim
  have hs' := sound_step lawful_tiledDiscipline hs hstep hpermits
  refine ⟨fun ht => ⟨hs'.always.1, ?_⟩, _, hs'⟩
  cases hstep with
  | op t h call o k e ht => exact (hs.guarantee (.op t h call o k e ht) hpermits).1
  | restart => exact hnew.elim
  | _ => exact .refl _

/-- A step keeps what holds of the consumer. -/
theorem Consuming.step (h : Consuming t received c) (hstep : Step c l c')
    (hconsumes : Consumes t received c l) (hnew : RotatesToNewFiles c l) :
    Consuming t (receive t l received) c' := by
  obtain ⟨hrel, hsound⟩ := h.grows hstep hnew
  obtain ⟨g, hs⟩ := h.sound
  obtain ⟨stored, hread, hgot⟩ := h.got
  have hcursor := cursorAfter_get hs.always.1.toLedger hread hgot
  have hobserved : growing.Observed Answered (fun u => u = t) c' := by
    refine Rely.observed_step growing_refl h.observed hstep hrel (fun u hd made hu hlabel => ?_)
      fun _ _ _ _ _ => trivial
    subst hu hlabel
    obtain ⟨rotation, limit, rfl⟩ := hconsumes rfl
    exact observes_load_call hs.always.1 hcursor (hread.length_eq ▸ hgot.length_le)
  have hgrown := hgot.trans (hrel hs.always.1).2.log
  have hsame : receive t l received = received → Consuming t (receive t l received) c' := by
    intro hreceive
    rw [hreceive]
    refine ⟨hsound, ⟨stored, hread, hgrown⟩, fun task htask => ?_, hobserved⟩
    rcases hstep.task_cases htask with hlabel | ⟨task', htask', heq⟩
    · subst hlabel
      exact hconsumes rfl
    · rw [← heq]
      exact h.calls task' htask'
  cases l with
  | respond u hd made r =>
    by_cases hu : u = t
    · subst hu
      cases made with
      | loadAfterVersion rotation cursor limit =>
        cases r with
        | error e => exact hsame rfl
        | ok answer =>
          cases answer with
          | loaded events =>
            -- the answer follows what the consumer has got
            have hanswered := h.observed.respond growing_refl rfl hstep
            have hreceive : receive u (.respond u hd (.loadAfterVersion rotation cursor limit)
                (.ok (.loaded events))) received = received ++ events := if_pos rfl
            rw [hreceive]
            cases hstep with
            | respond u hd made r htask hr =>
              obtain ⟨rotation', limit', heq⟩ := h.calls _ htask
              obtain ⟨-, rfl, -⟩ := StreamCall.loadAfterVersion.inj heq
              obtain ⟨more, hmore, hevents⟩ := hanswered _ _ _ _ rfl rfl received.length hcursor
              refine ⟨hsound, ⟨stored ++ more, hread.append hmore, ?_⟩, fun task htask' => ?_, hobserved⟩
              · obtain ⟨s, hlog⟩ := hgot
                rw [← hlog, ← hread.length_eq, List.drop_left] at hevents
                show stored ++ more <+: c.st.log
                rw [← hlog]
                exact (List.prefix_append_right_inj _).2 hevents
              · simp at htask'
          | _ => exact hsame rfl
      | _ => exact hsame rfl
    · refine hsame ?_
      unfold receive
      split
      · rename_i heq
        obtain ⟨rfl, -⟩ := Label.respond.inj heq
        exact if_neg hu
      · rfl
  | _ => exact hsame rfl

/-- **A consumer misses nothing**: reading on from the version of the last event it has got, with any
limits, it has at every moment got the first events of the stream as they are read, each of them once and in
order. -/
theorem consumer_misses_nothing {rotation : RotationPolicy} {w₀ : World Unit}
    {tr : List (Label (eventStreams Unit) T × Config (eventStreams Unit) T)}
    (hopen : Opens rotation World.empty w₀)
    (hrun : IsRunWith (receive t) (fun received c l => Consumes t received c l ∧ RotatesToNewFiles c l)
      [] (Config.idle T w₀) tr) :
    ∃ m : Nat, ReadAs ((lastOf (Config.idle T w₀) tr).st.log.take m) (historyOf (receive t) [] tr) ∧
      (historyOf (receive t) [] tr).map (fun e => e.version.get) = versionsFrom 0 m := by
  obtain ⟨t₀, a, hfirst⟩ := firstOpen_of_opens hopen
  have hlast := hrun.invariant (P := Consuming t) ?_ fun received c l c' h hstep hl =>
    h.step hstep hl.1 hl.2
  · obtain ⟨g, hs⟩ := hlast.sound
    obtain ⟨stored, hread, hgot⟩ := hlast.got
    refine ⟨(historyOf (receive t) [] tr).length, ?_, versions_received hs.always.1.toLedger hread hgot⟩
    rw [← hread.length_eq, ← List.prefix_iff_eq_take.1 hgot]
    exact hread
  · refine ⟨⟨fun _ => .other, ?_⟩, ⟨[], .nil, List.nil_prefix⟩, fun task h => ?_, fun u task _ h => ?_⟩
    · exact sound_idle lawful_tiledDiscipline ⟨hfirst.intact, False.elim⟩ _
    · cases h
    · cases h

/-- The test of `Consumes` and `RotatesToNewFiles`. -/
def isConsumed (t : T) (received : List EventEnvelope) (c : Config (eventStreams Unit) T)
    (l : Label (eventStreams Unit) T) : Bool :=
  isFreshNote c l &&
    match l with
    | .invoke u _ (.loadAfterVersion _ cursor _) => u != t || cursor == cursorAfter received
    | .invoke u _ _ => u != t
    | _ => true

theorem consumes_of_isConsumed (h : isConsumed t received c l = true) :
    Consumes t received c l ∧ RotatesToNewFiles c l := by
  obtain ⟨hfresh, hcursor⟩ := Bool.and_eq_true_iff.1 h
  cases l with
  | invoke u hd made =>
    refine ⟨fun hu => ?_, trivial⟩
    subst hu
    cases made with
    | loadAfterVersion rotation cursor limit =>
      have hcursor : cursor = cursorAfter received := by simpa using hcursor
      exact ⟨rotation, limit, by rw [hcursor]⟩
    | _ => simp at hcursor
  | acquireWrite u hd note => exact ⟨trivial, freshNote_of_isFreshNote hfresh⟩
  | restart => cases hfresh
  | _ => exact ⟨trivial, trivial⟩

end Consumer

attribute [local instance] SerdeJson.limited

/-- A consumer reads while the second append rotates: its first answer has the event of the first hour,
and the second one goes on behind it. -/
def readsAlong : List (Move (eventStreams Unit) Bool) :=
  .invoke true () (.append hourly 1 .any [noteEvent]) :: List.replicate 15 (.turn true {}) ++
    .invoke true () (.append hourly 1 .any [noteEvent]) :: List.replicate 15 (.turn true atOne) ++
    .invoke false () (.loadAfterVersion hourly .start 10) :: List.replicate 3 (.turn false {}) ++
    List.replicate 25 (.turn true atOne) ++ List.replicate 2 (.turn false {}) ++
    .invoke false () (.loadAfterVersion hourly ⟨1⟩ 10) :: List.replicate 5 (.turn false {})

theorem consumer_misses_nothing_readsAlong :
    ∃ tr, play readsAlong (Config.idle Bool opened) = some tr ∧
      (lastOf (Config.idle Bool opened) tr).st.files.keys.length = 2 ∧
      (historyOf (receive false) [] tr).length = 2 ∧
      ∃ m : Nat, ReadAs ((lastOf (Config.idle Bool opened) tr).st.log.take m)
          (historyOf (receive false) [] tr) ∧
        (historyOf (receive false) [] tr).map (fun e => e.version.get) = versionsFrom 0 m := by
  have hplay : ((play readsAlong (Config.idle Bool opened)).map fun tr =>
      checksWith (receive false) (isConsumed false) [] (Config.idle Bool opened) tr &&
      ((lastOf (Config.idle Bool opened) tr).st.files.keys.length == 2 &&
      (historyOf (receive false) [] tr).length == 2)) = some true := by
    decide +kernel
  obtain ⟨tr, htr, hchecks⟩ := Option.map_eq_some_iff.1 hplay
  simp only [Bool.and_eq_true, beq_iff_eq] at hchecks
  obtain ⟨hconsumed, hfiles, hreceived⟩ := hchecks
  have hrun := (play_checksWith htr hconsumed).mono fun received c l hl => consumes_of_isConsumed hl
  exact ⟨tr, htr, hfiles, hreceived, consumer_misses_nothing opens_opened hrun⟩

end Events
