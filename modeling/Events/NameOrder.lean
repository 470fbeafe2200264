import Events.Lib.LexOrder
import Events.ForwardRotations

/-!
# The order of the names

Event files whose ranges begin with the same version are ordered by their names, byte by byte, by the
queries on the catalog and when the catalog is rebuilt. The fields of a name have a fixed width, and what
follows the label says whether there is an ordinal.

* **`NameParts.text_lt_iff`**, **`Named.lt_iff`** — names with labels of one shape compare as what they say.
* **`generated_named`**, **`generated_accepted`** — what a generated name says.
* **`NameSet`**, **`GoesBehind`** — a set of names of one policy in which no ordinal is left out, and a name
  that comes after all of them.
-/

namespace Events

/-! ## Labels -/

/-- What the label of a name names. -/
inductive LabelShape where
  | day
  | hour
  | minute
  deriving DecidableEq

/-- The shape of the label, by the time group of the regular expression. -/
def labelShape (name : Text) : Option LabelShape :=
  (captures name).map fun caps =>
    if caps.time.isNone then .day
    else if caps.time.map List.length = some 2 then .hour
    else .minute

def NameParts.shape (p : NameParts) : LabelShape :=
  if p.time.isNone then .day
  else if (p.time.bind Prod.snd).isNone then .hour
  else .minute

theorem labelShape_text {p : NameParts} (hp : p.Valid) : labelShape p.text = some p.shape := by
  unfold labelShape NameParts.shape
  rw [captures_iff.2 (matched_text p hp.year)]
  rcases p.time with _ | ⟨hour, _ | minute⟩
  · rfl
  · simp [timeDigits]
  · simp [timeDigits]

/-- The minutes of a time of day. -/
def minutesOf (time : Option (Nat × Option Nat)) : Nat :=
  (time.map fun t => t.1 * 60 + t.2.getD 0).getD 0

theorem NameParts.startMs_minutes (p : NameParts) :
    p.startMs = (Calendar.daysFromCivil p.date * 1440 + minutesOf p.time) * 60000 := by
  rw [p.startMs_eq]
  unfold secondsOf minutesOf
  rcases p.time with _ | ⟨hour, minute⟩
  · simp
    omega
  · simp
    omega

theorem NameParts.Valid.minutes_lt {p : NameParts} (h : p.Valid) : minutesOf p.time < 1440 := by
  have htime := h.time
  unfold minutesOf
  revert htime
  rcases p.time with _ | ⟨hour, minute⟩
  · exact fun _ => by decide
  · intro htime
    have hbounds := htime hour minute rfl
    show hour * 60 + minute.getD 0 < 1440
    omega

/-! ## Fields -/

section Fields

variable {x y : Text}

/-- The suffix of a name compares with the start of an ordinal, `'.'` coming before `'_'`. -/
theorem ordinal_lt_iff {o o' : Option Nat} (h : ValidOrdinal o) (h' : ValidOrdinal o') :
    ordinalText o ++ nameSuffix < ordinalText o' ++ nameSuffix ↔ rank o < rank o' := by
  cases o with
  | none =>
    cases o' with
    | none => simp [rank]
    | some n' =>
      have hlt : ordinalText none ++ nameSuffix < ordinalText (some n') ++ nameSuffix := by
        show ('.' :: _ : Text) < '_' :: _
        exact List.cons_lt_cons_iff.2 (.inl (by decide))
      exact iff_of_true hlt (Nat.succ_pos _)
  | some n =>
    cases o' with
    | none =>
      have hlt : ordinalText none ++ nameSuffix < ordinalText (some n) ++ nameSuffix := by
        show ('.' :: _ : Text) < '_' :: _
        exact List.cons_lt_cons_iff.2 (.inl (by decide))
      exact iff_of_false (lt_asymm hlt) (Nat.not_lt_zero _)
    | some n' =>
      obtain ⟨-, hn⟩ := h n rfl
      obtain ⟨-, hn'⟩ := h' n' rfl
      unfold maxOverflowOrdinal at hn hn'
      show '_' :: (Decimal.pad 6 n ++ nameSuffix) < '_' :: (Decimal.pad 6 n' ++ nameSuffix) ↔ _
      rw [List.cons_lt_cons_self, LexOrder.append_lt_append_iff (by simp),
        Decimal.pad_lt_pad (by omega) (by omega)]
      simp [rank]

theorem pad_append_lt_iff {width n n' : Nat} (h : n < 10 ^ width) (h' : n' < 10 ^ width) :
    Decimal.pad width n ++ x < Decimal.pad width n' ++ y ↔ n < n' ∨ n = n' ∧ x < y := by
  have heq : Decimal.pad width n = Decimal.pad width n' ↔ n = n' :=
    ⟨Decimal.pad_injective h h', fun heq => by rw [heq]⟩
  rw [LexOrder.append_lt_append_iff (by simp), Decimal.pad_lt_pad h h', heq]

/-- Times of day of one shape. -/
theorem time_lt_iff {p p' : NameParts} (h : p.Valid) (h' : p'.Valid) (hshape : p.shape = p'.shape) :
    timeText p.time ++ x < timeText p'.time ++ y ↔
      minutesOf p.time < minutesOf p'.time ∨ minutesOf p.time = minutesOf p'.time ∧ x < y := by
  have htime := h.time
  have htime' := h'.time
  unfold NameParts.shape at hshape
  generalize p.time = t at htime hshape ⊢
  generalize p'.time = t' at htime' hshape ⊢
  rcases t with _ | ⟨hour, _ | minute⟩ <;> rcases t' with _ | ⟨hour', _ | minute'⟩ <;>
    simp at hshape
  · simp [timeText, minutesOf]
  · -- two hours
    have hb := htime hour none rfl
    have hb' := htime' hour' none rfl
    show 'T' :: (Decimal.pad 2 hour ++ x) < 'T' :: (Decimal.pad 2 hour' ++ y) ↔ _
    rw [List.cons_lt_cons_self, pad_append_lt_iff (by omega) (by omega)]
    simp only [minutesOf, Option.map_some, Option.getD_some, Option.getD_none]
    by_cases hxy : x < y <;> simp only [hxy, and_true, and_false, or_false] <;> omega
  · -- two minutes
    have hb := htime hour (some minute) rfl
    have hb' := htime' hour' (some minute') rfl
    simp only [Option.getD_some] at hb hb'
    show 'T' :: (Decimal.pad 2 hour ++ Decimal.pad 2 minute ++ x) <
      'T' :: (Decimal.pad 2 hour' ++ Decimal.pad 2 minute' ++ y) ↔ _
    rw [List.cons_lt_cons_self, List.append_assoc, List.append_assoc,
      pad_append_lt_iff (by omega) (by omega), pad_append_lt_iff (by omega) (by omega)]
    simp only [minutesOf, Option.map_some, Option.getD_some]
    by_cases hxy : x < y <;> simp only [hxy, and_true, and_false, or_false] <;> omega

/-- Dates. -/
theorem date_lt_iff {p p' : NameParts} (h : p.Valid) (h' : p'.Valid) :
    Decimal.pad 4 p.year ++ (Decimal.pad 2 p.month ++ Decimal.pad 2 p.day) ++ x <
        Decimal.pad 4 p'.year ++ (Decimal.pad 2 p'.month ++ Decimal.pad 2 p'.day) ++ y ↔
      p.date.Before p'.date ∨ p.date = p'.date ∧ x < y := by
  obtain ⟨hy, hm, hd⟩ := h.bounds
  obtain ⟨hy', hm', hd'⟩ := h'.bounds
  rw [List.append_assoc, List.append_assoc, List.append_assoc, List.append_assoc,
    pad_append_lt_iff (by omega) (by omega), pad_append_lt_iff (by omega) (by omega),
    pad_append_lt_iff (by omega) (by omega)]
  simp only [NameParts.date, Calendar.Civil.Before, Calendar.Civil.mk.injEq]
  by_cases hxy : x < y <;> simp only [hxy, and_true, and_false, or_false] <;> omega

end Fields

/-- **Names compare as what they say**, when their labels are of one shape. -/
theorem NameParts.text_lt_iff {p p' : NameParts} (h : p.Valid) (h' : p'.Valid)
    (hshape : p.shape = p'.shape) :
    p.text < p'.text ↔ Before (p.startMs, p.ordinal) (p'.startMs, p'.ordinal) := by
  have hdays := Calendar.daysFromCivil_lt_iff h.date h'.date
  have hsame : p.date = p'.date ↔ Calendar.daysFromCivil p.date = Calendar.daysFromCivil p'.date :=
    ⟨fun heq => by rw [heq], Calendar.daysFromCivil_injective h.date h'.date⟩
  have hminutes := h.minutes_lt
  have hminutes' := h'.minutes_lt
  unfold NameParts.text
  rw [LexOrder.append_lt_append_iff rfl, date_lt_iff h h', time_lt_iff h h' hshape,
    ordinal_lt_iff h.ordinal h'.ordinal, ← hdays, hsame]
  simp only [lt_irrefl, true_and, false_or, Before, p.startMs_minutes, p'.startMs_minutes]
  omega

/-! ## Bytes -/

/-- The UTF-8 encoding of a text. -/
def utf8 (t : Text) : List UInt8 := t.flatMap String.utf8EncodeChar

theorem ascii_of_mem_text {p : NameParts} {c : Char} (h : c ∈ p.text) : c.toNat < 128 := by
  have hpad : ∀ {width n}, c ∈ Decimal.pad width n → c.toNat < 128 := by
    intro width n hc
    obtain ⟨d, hd, rfl⟩ := Decimal.digitValue_of_mem_pad hc
    rw [Decimal.toNat_digit hd]
    omega
  have htime : c ∈ timeText p.time → c.toNat < 128 := by
    rcases p.time with _ | ⟨hour, _ | minute⟩
    · exact fun hc => by cases hc
    · intro hc
      rcases List.mem_cons.1 hc with rfl | hc
      · decide
      · exact hpad hc
    · intro hc
      rcases List.mem_cons.1 hc with rfl | hc
      · decide
      · exact (List.mem_append.1 hc).elim hpad hpad
  have hordinal : c ∈ ordinalText p.ordinal → c.toNat < 128 := by
    rcases p.ordinal with _ | n
    · exact fun hc => by cases hc
    · intro hc
      rcases List.mem_cons.1 hc with rfl | hc
      · decide
      · exact hpad hc
  have hfixed : ∀ d ∈ namePrefix ++ nameSuffix, d.toNat < 128 := by
    simp [namePrefix, nameSuffix]
  simp only [NameParts.text, List.mem_append] at h
  rcases h with h | (h | h | h) | h | h | h
  · exact hfixed c (List.mem_append_left _ h)
  · exact hpad h
  · exact hpad h
  · exact hpad h
  · exact htime h
  · exact hordinal h
  · exact hfixed c (List.mem_append_right _ h)

/-- ASCII texts compare as their bytes. -/
theorem utf8_lt_iff {s t : Text} (h : ∀ c ∈ s ++ t, c.toNat < 128) : utf8 s < utf8 t ↔ s < t := by
  have hbyte : ∀ c ∈ s ++ t, c.val.toUInt8.toNat = c.toNat := by
    intro c hc
    have hlow := h c hc
    rw [UInt32.toNat_toUInt8]
    exact Nat.mod_eq_of_lt (by show c.toNat < 256; omega)
  refine LexOrder.flatMap_singleton_lt_iff (g := fun c => c.val.toUInt8) (fun c hc => ?_)
    fun c hc d hd => ⟨?_, fun heq => ?_⟩
  · refine String.utf8EncodeChar_eq_singleton (Char.utf8Size_eq_one_iff.2 ?_)
    have hlow : c.toNat < 128 := h c hc
    show c.toNat ≤ 127
    omega
  · show c.val.toUInt8.toNat < d.val.toUInt8.toNat ↔ c.toNat < d.toNat
    rw [hbyte c hc, hbyte d hd]
  · have hnat := congrArg UInt8.toNat heq
    rw [hbyte c hc, hbyte d hd] at hnat
    exact Char.toNat_inj.1 hnat

/-- **Accepted names** with labels of one shape compare byte by byte as what they say. -/
theorem Named.lt_iff {n n' : Text} {v v' : Int × Option Nat} (h : Named n v) (h' : Named n' v')
    (hshape : labelShape n = labelShape n') :
    (utf8 n < utf8 n' ↔ Before v v') ∧ (n < n' ↔ Before v v') ∧ (n = n' ↔ v = v') := by
  obtain ⟨p, hp, rfl, rfl⟩ := h
  obtain ⟨p', hp', rfl, rfl⟩ := h'
  rw [labelShape_text hp, labelShape_text hp'] at hshape
  have hlt := NameParts.text_lt_iff hp hp' (Option.some.inj hshape)
  have hgt := NameParts.text_lt_iff hp' hp (Option.some.inj hshape).symm
  refine ⟨?_, hlt, ?_⟩
  · rw [← hlt]
    refine utf8_lt_iff fun c hc => ?_
    rcases List.mem_append.1 hc with hc | hc
    · exact ascii_of_mem_text hc
    · exact ascii_of_mem_text hc
  · constructor
    · intro heq
      have hnamed : Named p.text (p'.startMs, p'.ordinal) := ⟨p', hp', heq, rfl⟩
      exact Named.unique ⟨p, hp, rfl, rfl⟩ hnamed
    · intro heq
      rw [heq] at hlt hgt
      refine le_antisymm (not_lt.1 fun hback => ?_) (not_lt.1 fun hback => ?_)
      · have := hgt.1 hback
        unfold Before at this
        omega
      · have := hlt.1 hback
        unfold Before at this
        omega

/-! ## Generated names -/

/-- The shape of the labels of a policy. -/
def windowShape (window : Duration) : LabelShape :=
  if 86400 ≤ window.asSecs then .day else if 3600 ≤ window.asSecs then .hour else .minute

/-- The start of the label that names a time. -/
def labelStart (window : Duration) (startMs : Int) : Int := startMs - startMs % labelMs window

theorem labelStart_labelStart (window : Duration) (s : Int) :
    labelStart window (labelStart window s) = labelStart window s := by
  unfold labelStart
  rw [Int.sub_emod, Int.emod_emod, sub_self, Int.zero_emod, sub_zero]

/-- A year before the year 0 is written with its sign. -/
theorem labelFor_negative {startMs : Int} {window : Duration} {label : Text}
    (hs : startMs < -62167219200000) (h : labelFor startMs window = .ok label) :
    ∃ rest, label = '-' :: rest := by
  unfold labelFor at h
  cases hdt : OffsetDateTime.fromUnixTimestampNanos (startMs * 1000000) with
  | none =>
    rw [hdt] at h
    cases h
  | some dt =>
    have hnanos : dt.unixTimestampNanos = startMs * 1000000 := by
      unfold OffsetDateTime.fromUnixTimestampNanos at hdt
      split at hdt
      · cases hdt
        rfl
      · cases hdt
    simp only [hdt, OffsetDateTime.unixTimestamp, hnanos] at h
    have hyear : (Calendar.civilFromDays (startMs * 1000000 / 1000000000 / 86400)).year < 0 := by
      by_contra hpos
      have := Calendar.year_civilFromDays_nonneg.1 (not_lt.1 hpos)
      omega
    have htext : ∃ rest, yearText
        (Calendar.civilFromDays (startMs * 1000000 / 1000000000 / 86400)).year = '-' :: rest := by
      unfold yearText
      rw [if_pos hyear]
      exact ⟨_, rfl⟩
    obtain ⟨rest, hrest⟩ := htext
    rw [hrest] at h
    split at h
    · cases h
      exact ⟨_, rfl⟩
    · split at h
      · cases h
        exact ⟨_, rfl⟩
      · cases h
        exact ⟨_, rfl⟩

theorem named_of_parse {name : Text} {v : Int × Option Nat} (h : parsePartitionName name = .ok v) :
    Named name v := by
  have hout := outcome_parsePartitionName name
  rw [h] at hout
  cases hout with
  | value _ hnamed _ => exact hnamed

/-- An accepted name goes on with a digit. -/
theorem not_named_minus {rest : Text} {v : Int × Option Nat} : ¬Named (namePrefix ++ '-' :: rest) v := by
  rintro ⟨p, -, htext, -⟩
  have hrest := List.append_cancel_left (htext.trans rfl)
  rw [List.append_assoc] at hrest
  have hmem : '-' ∈ Decimal.pad 4 p.year := by
    cases hpad : Decimal.pad 4 p.year with
    | nil => simpa using congrArg List.length hpad
    | cons c cs =>
      rw [hpad] at hrest
      rw [(List.cons.inj hrest).1]
      exact List.mem_cons_self
  have hdigit := Decimal.digitValue_isSome_of_mem_pad hmem
  revert hdigit
  decide

/-- What a name is generated from. -/
theorem generatePartitionName_ok {startMs : Int} {window : Duration} {ordinal : Option Nat} {name : Text}
    (h : generatePartitionName startMs window ordinal = .ok name) :
    (∃ label rest, labelFor startMs window = .ok label ∧ name = namePrefix ++ (label ++ rest)) ∧
      ValidOrdinal ordinal := by
  unfold generatePartitionName at h
  cases hlabel : labelFor startMs window with
  | error err =>
    rw [hlabel] at h
    cases h
  | ok label =>
    rw [hlabel] at h
    cases ordinal with
    | none =>
      cases h
      exact ⟨⟨label, nameSuffix, rfl, List.append_assoc ..⟩, fun o ho => by cases ho⟩
    | some n =>
      change (if 1 ≤ n ∧ n ≤ maxOverflowOrdinal then _ else _) = Except.ok name at h
      split at h
      · rename_i hn
        cases h
        refine ⟨⟨label, _, rfl, List.append_assoc ..⟩, fun o ho => ?_⟩
        obtain rfl := Option.some.inj ho
        exact hn
      · cases h

theorem labelFor_upper {startMs : Int} {window : Duration} {label : Text}
    (h : labelFor startMs window = .ok label) : startMs < 253402300800000 := by
  unfold labelFor OffsetDateTime.fromUnixTimestampNanos at h
  by_contra hupper
  rw [dif_neg (by unfold supNanos; omega)] at h
  cases h

/-- **A generated name** says the start of its label, and its ordinal, if it is not of a year before the
year 0. -/
theorem generated_named {startMs : Int} {window : Duration} {ordinal : Option Nat} {name : Text}
    (h : generatePartitionName startMs window ordinal = .ok name)
    (hlower : -62167219200000 ≤ startMs) :
    Named name (labelStart window startMs, ordinal) ∧ labelShape name = some (windowShape window) ∧
      ValidOrdinal ordinal := by
  obtain ⟨⟨label, rest, hlabel, hname⟩, hordinal⟩ := generatePartitionName_ok h
  have hupper := labelFor_upper hlabel
  have hvalid : (partsOf startMs window ordinal).Valid := valid_partsOf hlower hupper hordinal
  obtain rfl : (partsOf startMs window ordinal).text = name := by
    rw [generatePartitionName_eq hlower hupper hordinal] at h
    exact Except.ok.inj h
  refine ⟨⟨_, hvalid, rfl, ?_⟩, ?_, hordinal⟩
  · rw [startMs_partsOf hlower hupper]
    rfl
  · rw [labelShape_text hvalid]
    unfold NameParts.shape partsOf windowShape
    dsimp only
    repeat' split
    all_goals simp_all

/-- The names of years before the year 0 are not accepted. -/
theorem generated_lower {startMs : Int} {window : Duration} {ordinal : Option Nat} {name : Text}
    {v : Int × Option Nat} (h : generatePartitionName startMs window ordinal = .ok name)
    (hnamed : Named name v) : -62167219200000 ≤ startMs := by
  obtain ⟨⟨label, rest, hlabel, hname⟩, -⟩ := generatePartitionName_ok h
  by_contra hneg
  obtain ⟨tail, rfl⟩ := labelFor_negative (not_le.1 hneg) hlabel
  rw [hname] at hnamed
  exact not_named_minus hnamed

/-- **A generated name that is accepted** says the start of its label, and its ordinal. -/
theorem generated_accepted {startMs : Int} {window : Duration} {ordinal : Option Nat} {name : Text}
    (h : generatePartitionName startMs window ordinal = .ok name)
    (haccepted : ∃ v, parsePartitionName name = .ok v) :
    Named name (labelStart window startMs, ordinal) ∧ labelShape name = some (windowShape window) ∧
      ValidOrdinal ordinal := by
  obtain ⟨v, hv⟩ := haccepted
  exact generated_named h (generated_lower h (named_of_parse hv))

/-! ## Ordinals -/

theorem rank_lt_iff {o o' : Option Nat} (h : ValidOrdinal o) (h' : ValidOrdinal o') :
    rank o < rank o' ↔ o.getD 0 < o'.getD 0 := by
  rcases o with _ | n <;> rcases o' with _ | n'
  · exact Iff.rfl
  · have hn' := h' n' rfl
    exact iff_of_true (Nat.succ_pos _) hn'.1
  · exact iff_of_false (Nat.not_lt_zero _) (Nat.not_lt_zero _)
  · exact Nat.succ_lt_succ_iff

theorem ordinal_eq_of_getD {o o' : Option Nat} (h : ValidOrdinal o) (h' : ValidOrdinal o')
    (heq : o.getD 0 = o'.getD 0) : o = o' := by
  rcases o with _ | n <;> rcases o' with _ | n'
  · rfl
  · have hn' := h' n' rfl
    simp at heq
    omega
  · have hn := h n rfl
    simp at heq
    omega
  · simpa using heq

theorem Named.validOrdinal {n : Text} {v : Int × Option Nat} (h : Named n v) : ValidOrdinal v.2 := by
  obtain ⟨p, hp, -, rfl⟩ := h
  exact hp.ordinal

/-! ## Sets of names -/

/-- Accepted names of one policy: the labels have the policy's shape, and below an ordinal none is left
out. -/
structure NameSet (window : Duration) (names : Set Text) : Prop where
  shaped : ∀ n ∈ names, ∀ v, Named n v →
    labelShape n = some (windowShape window) ∧ labelStart window v.1 = v.1
  every : ∀ n ∈ names, ∀ v, Named n v → ∀ o, ValidOrdinal o → o.getD 0 ≤ v.2.getD 0 →
    ∃ m ∈ names, Named m (v.1, o)

/-- The name is behind all those of the set, and the next one of its label. -/
structure GoesBehind (window : Duration) (names : Set Text) (name : Text) : Prop where
  shaped : ∀ v, Named name v → labelShape name = some (windowShape window) ∧ labelStart window v.1 = v.1
  below : ∀ v, Named name v → ∀ o, ValidOrdinal o → o.getD 0 < v.2.getD 0 → ∃ m ∈ names, Named m (v.1, o)
  last : ∀ v, Named name v → ∀ m ∈ names, ∀ u, Named m u → m < name

/-- What is new in the second set comes after everything in the first. -/
def Ascends (names names' : Set Text) : Prop :=
  ∀ n ∈ names', n ∉ names → ∀ v, Named n v → ∀ m ∈ names, ∀ u, Named m u → m < n

section Sets

variable {window : Duration} {names : Set Text} {name : Text} {startMs : Int} {ordinal : Option Nat}

/-- Two accepted names of the policy that say the same are the same. -/
theorem NameSet.eq_of_named (h : NameSet window names) {m : Text} {v : Int × Option Nat} (hm : m ∈ names)
    (hmv : Named m v) (hnamed : Named name v) (hshape : labelShape name = some (windowShape window)) :
    m = name :=
  (hmv.lt_iff hnamed ((h.shaped m hm v hmv).1.trans hshape.symm)).2.2.2 rfl

/-- A name that goes behind the others may be added. -/
theorem NameSet.insert (h : NameSet window names) (hnew : GoesBehind window names name) :
    NameSet window (insert name names) where
  shaped := by
    rintro n (rfl | hn) v hv
    · exact hnew.shaped v hv
    · exact h.shaped n hn v hv
  every := by
    rintro n (rfl | hn) v hv o ho hle
    · rcases hle.lt_or_eq with hlt | heq
      · obtain ⟨m, hm, hmv⟩ := hnew.below v hv o ho hlt
        exact ⟨m, .inr hm, hmv⟩
      · obtain rfl := ordinal_eq_of_getD ho hv.validOrdinal heq
        exact ⟨n, .inl rfl, hv⟩
    · obtain ⟨m, hm, hmv⟩ := h.every n hn v hv o ho hle
      exact ⟨m, .inr hm, hmv⟩

/-- **A generated name goes behind the others** if no label among them begins later than its own, and the
ordinal before its own is there. -/
theorem NameSet.goesBehind (h : NameSet window names)
    (hname : generatePartitionName startMs window ordinal = .ok name) (hfresh : name ∉ names)
    (hlater : ∀ v, Named name v → ∀ m ∈ names, ∀ u, Named m u → u.1 ≤ v.1)
    (hprevious : -62167219200000 ≤ startMs → ordinal = none ∨
      ∃ m ∈ names, ∃ o, Named m (labelStart window startMs, o) ∧ ordinal.getD 0 = o.getD 0 + 1) :
    GoesBehind window names name := by
  have hsays : ∀ v, Named name v → v = (labelStart window startMs, ordinal) ∧
      labelShape name = some (windowShape window) := by
    intro v hv
    obtain ⟨hnamed, hshape, -⟩ := generated_named hname (generated_lower hname hv)
    exact ⟨hv.unique hnamed, hshape⟩
  refine ⟨fun v hv => ?_, fun v hv o ho hlt => ?_, fun v hv m hm u hu => ?_⟩
  · obtain ⟨rfl, hshape⟩ := hsays v hv
    exact ⟨hshape, labelStart_labelStart _ _⟩
  · obtain ⟨rfl, -⟩ := hsays v hv
    rcases hprevious (generated_lower hname hv) with rfl | ⟨m, hm, o', hmv, hnext⟩
    · exact absurd hlt (Nat.not_lt_zero _)
    · exact h.every m hm _ hmv o ho (by simp only at hlt ⊢; omega)
  · obtain ⟨hv', hshape⟩ := hsays v hv
    have hms := h.shaped m hm u hu
    refine (hu.lt_iff hv (hms.1.trans hshape.symm)).2.1.2 ?_
    rcases (hlater v hv m hm u hu).lt_or_eq with hlt | heq
    · exact .inl hlt
    · -- with an ordinal that is not smaller, the new name would be there already
      refine .inr ⟨heq, (rank_lt_iff hu.validOrdinal hv.validOrdinal).2 ?_⟩
      by_contra hge
      obtain ⟨n, hn, hnv⟩ := h.every m hm u hu v.2 hv.validOrdinal (not_lt.1 hge)
      rw [heq] at hnv
      exact hfresh (h.eq_of_named hn hnv hv hshape ▸ hn)

end Sets

end Events
