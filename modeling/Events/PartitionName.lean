import Events.Rotation

/-!
# What the names of event files say

`parsePartitionName` against the grammar of names.

* **`NameParts`** — the parts of a name; `NameParts.text` writes them, `NameParts.startMs` is the
  time of the label.
* **`captures_iff`** — what the regular expression matches. Its `\d` is any decimal digit of
  Unicode, while the components are cut out at byte offsets.
* **`PanicsOn`** — the names on which a cut falls inside a character.
* **`parsePartitionName_exact`** — outside of these the parser accepts the grammar and nothing else.
* **`generatePartitionName_roundTrip`** — a generated name is read back if and only if the start of
  its window is one of its label.
-/

namespace Events

/-! ## The grammar -/

/-- The label of a time of day. -/
def timeText : Option (Nat × Option Nat) → Text
  | none => []
  | some (hour, none) => 'T' :: Decimal.pad 2 hour
  | some (hour, some minute) => 'T' :: (Decimal.pad 2 hour ++ Decimal.pad 2 minute)

def ordinalText : Option Nat → Text
  | none => []
  | some ordinal => '_' :: Decimal.pad 6 ordinal

/-- What a name is made of. -/
structure NameParts where
  year : Nat
  month : Nat
  day : Nat
  time : Option (Nat × Option Nat)
  ordinal : Option Nat

namespace NameParts

/-- `events_YYYYMMDD[THH[MM]][_NNNNNN].db`. -/
def text (p : NameParts) : Text :=
  namePrefix ++ (Decimal.pad 4 p.year ++ (Decimal.pad 2 p.month ++ Decimal.pad 2 p.day) ++
    (timeText p.time ++ (ordinalText p.ordinal ++ nameSuffix)))

def date (p : NameParts) : Calendar.Civil := ⟨p.year, p.month, p.day⟩

/-- The label is a date and a time of day, and the ordinal is in its range. -/
structure Valid (p : NameParts) : Prop where
  year : p.year ≤ 9999
  date : p.date.Valid
  time : ∀ hour minute, p.time = some (hour, minute) → hour < 24 ∧ minute.getD 0 < 60
  ordinal : ∀ ordinal, p.ordinal = some ordinal → 1 ≤ ordinal ∧ ordinal ≤ maxOverflowOrdinal

/-- The time of the label, in milliseconds. -/
def startMs (p : NameParts) : Int :=
  match p.time with
  | none => Calendar.daysFromCivil p.date * 86400 * 1000
  | some (hour, minute) =>
    (Calendar.daysFromCivil p.date * 86400 + hour * 3600 + minute.getD 0 * 60) * 1000

end NameParts

/-- `name` is the name of an event file with this start and ordinal. -/
def Named (name : Text) (v : Int × Option Nat) : Prop :=
  ∃ p : NameParts, p.Valid ∧ name = p.text ∧ v = (p.startMs, p.ordinal)

/-! ## Cutting a text at byte offsets -/

/-- A text of ASCII digits. -/
def AsciiDigits (t : Text) : Prop := ∀ c ∈ t, (Decimal.digitValue c).isSome

instance (t : Text) : Decidable (AsciiDigits t) :=
  List.decidableBAll (fun c => (Decimal.digitValue c).isSome = true) t

/-- A text of decimal digits of any script. -/
def Digits (t : Text) : Prop := ∀ c ∈ t, isDecimalDigit c = true

/-- A character ends after the first `n` bytes. -/
def Boundary (t : Text) (n : Nat) : Prop := ∃ before after, t = before ++ after ∧ before.len = n

section Slices

variable {s t : Text} {n start stop : Nat}

@[simp] theorem len_nil : Text.len [] = 0 := rfl

@[simp] theorem len_cons (c : Char) (t : Text) : Text.len (c :: t) = c.utf8Size + Text.len t := by
  simp [Text.len]

@[simp] theorem len_append (s t : Text) : Text.len (s ++ t) = s.len + t.len := by
  simp [Text.len]

theorem length_le_len (t : Text) : t.length ≤ t.len := by
  induction t with
  | nil => exact Nat.le_refl 0
  | cons c t ih =>
    have := c.utf8Size_pos
    rw [len_cons, List.length_cons]
    omega

theorem dropBytes_eq_some : dropBytes n t = some s ↔ ∃ before, t = before ++ s ∧ before.len = n := by
  induction t generalizing n with
  | nil =>
    cases n with
    | zero => simp [dropBytes]
    | succ n => simp [dropBytes]
  | cons c t ih =>
    have hpos := c.utf8Size_pos
    cases n with
    | zero =>
      constructor
      · rintro h
        exact ⟨[], by simpa [dropBytes] using h, rfl⟩
      · rintro ⟨before, h, hlen⟩
        have hnil : before = [] := by
          have := length_le_len before
          exact List.length_eq_zero_iff.1 (by omega)
        simpa [dropBytes, hnil] using h
    | succ n =>
      simp only [dropBytes]
      constructor
      · intro h
        split at h
        · obtain ⟨before, rfl, hlen⟩ := ih.1 h
          exact ⟨c :: before, rfl, by rw [len_cons]; omega⟩
        · cases h
      · rintro ⟨before, h, hlen⟩
        cases before with
        | nil => simp at hlen
        | cons b before =>
          obtain ⟨rfl, rfl⟩ : c = b ∧ t = before ++ s := by simpa using h
          rw [len_cons] at hlen
          rw [if_pos (by omega)]
          exact ih.2 ⟨before, rfl, by omega⟩

theorem takeBytes_eq_some : takeBytes n t = some s ↔ ∃ after, t = s ++ after ∧ s.len = n := by
  -- induction on the text; a character takes one to four bytes off the count
  induction t generalizing n s with
  | nil =>
    cases n with
    | zero =>
      constructor
      · intro h
        obtain rfl : [] = s := by simpa [takeBytes] using h
        exact ⟨[], rfl, rfl⟩
      · rintro ⟨after, h, -⟩
        obtain ⟨rfl, -⟩ : s = [] ∧ after = [] := by simpa using h
        rfl
    | succ n =>
      simp only [takeBytes, reduceCtorEq, false_iff]
      rintro ⟨after, h, hlen⟩
      obtain ⟨rfl, -⟩ : s = [] ∧ after = [] := by simpa using h
      simp at hlen
  | cons c t ih =>
    have hpos := c.utf8Size_pos
    cases n with
    | zero =>
      simp only [takeBytes, Option.some.injEq]
      constructor
      · rintro rfl
        exact ⟨_, rfl, rfl⟩
      · rintro ⟨after, h, hlen⟩
        have := length_le_len s
        exact (List.length_eq_zero_iff.1 (by omega)).symm
    | succ n =>
      simp only [takeBytes]
      constructor
      · intro h
        -- the character fits into the bytes left, or the cut falls inside it
        split at h
        · obtain ⟨s', hs', rfl⟩ := Option.map_eq_some_iff.1 h
          obtain ⟨after, rfl, hlen⟩ := ih.1 hs'
          exact ⟨after, rfl, by rw [len_cons]; omega⟩
        · cases h
      · rintro ⟨after, h, hlen⟩
        cases s with
        | nil => simp at hlen
        | cons b s =>
          obtain ⟨rfl, rfl⟩ : c = b ∧ t = s ++ after := by simpa using h
          rw [len_cons] at hlen
          rw [if_pos (by omega), ih.2 ⟨after, rfl, by omega⟩]
          rfl

theorem slice_ok (h : ∃ before after, t = before ++ s ++ after ∧ before.len = start ∧
    s.len = stop - start) : slice t start stop = .ok s := by
  obtain ⟨before, after, ht, hb, hs⟩ := h
  have hdrop : dropBytes start t = some (s ++ after) :=
    dropBytes_eq_some.2 ⟨before, by rw [ht, List.append_assoc], hb⟩
  have htake : takeBytes (stop - start) (s ++ after) = some s := takeBytes_eq_some.2 ⟨after, rfl, hs⟩
  simp only [slice, hdrop, Option.bind_some, htake]

/-- A cut inside a character panics. -/
theorem slice_panic (hle : start ≤ stop) (h : ¬Boundary t stop) :
    slice t start stop = .error .panic := by
  unfold slice
  split
  · rename_i hcut
    obtain ⟨r, hr, hs⟩ := Option.bind_eq_some_iff.1 hcut
    obtain ⟨before, rfl, hb⟩ := dropBytes_eq_some.1 hr
    obtain ⟨after, rfl, hlen⟩ := takeBytes_eq_some.1 hs
    exact absurd ⟨before ++ _, after, (List.append_assoc ..).symm, by rw [len_append]; omega⟩ h
  · rfl

end Slices

/-! ## Digits -/

section DigitTexts

variable {t : Text} {n : Nat} {c : Char}

theorem digit_utf8Size {d : Nat} (h : d < 10) : (Decimal.digit d).utf8Size = 1 := by
  interval_cases d <;> rfl

theorem utf8Size_of_digitValue (h : (Decimal.digitValue c).isSome) : c.utf8Size = 1 := by
  obtain ⟨d, hd⟩ := Option.isSome_iff_exists.1 h
  obtain ⟨rfl, hlt⟩ := Decimal.digit_of_digitValue hd
  exact digit_utf8Size hlt

theorem isDecimalDigit_of_digitValue (h : (Decimal.digitValue c).isSome) :
    isDecimalDigit c = true := by
  obtain ⟨d, hd⟩ := Option.isSome_iff_exists.1 h
  obtain ⟨rfl, hlt⟩ := Decimal.digit_of_digitValue hd
  interval_cases d <;> decide

/-- The decimal digits of one byte are those of ASCII. -/
theorem digitValue_of_utf8Size (h : isDecimalDigit c = true) (hs : c.utf8Size = 1) :
    (Decimal.digitValue c).isSome := by
  have hlt : c.toNat < 128 := by
    have hle : c.val ≤ 127 := Char.utf8Size_eq_one_iff.1 hs
    have : c.toNat ≤ 127 := hle
    omega
  simp only [isDecimalDigit, digitBlocks, List.any_cons, List.any_nil, Bool.or_eq_true,
    Bool.and_eq_true, decide_eq_true_eq, Bool.or_false] at h
  have hdigit : 48 ≤ c.toNat ∧ c.toNat ≤ 57 := by omega
  simp [Decimal.digitValue, hdigit]

namespace AsciiDigits

theorem digits (h : AsciiDigits t) : Digits t := fun c hc => isDecimalDigit_of_digitValue (h c hc)

theorem len (h : AsciiDigits t) : t.len = t.length := by
  induction t with
  | nil => rfl
  | cons c t ih =>
    rw [len_cons, utf8Size_of_digitValue (h c List.mem_cons_self),
      ih fun d hd => h d (List.mem_cons_of_mem _ hd), List.length_cons]
    omega

theorem append {s : Text} (hs : AsciiDigits s) (ht : AsciiDigits t) : AsciiDigits (s ++ t) :=
  fun c hc => (List.mem_append.1 hc).elim (hs c) (ht c)

theorem pad (width n : Nat) : AsciiDigits (Decimal.pad width n) := fun _ hc =>
  Decimal.digitValue_isSome_of_mem_pad hc

end AsciiDigits

/-- Digits that take a byte each are ASCII digits. -/
theorem Digits.ascii (h : Digits t) (hlen : t.len = t.length) : AsciiDigits t := by
  induction t with
  | nil => exact fun c hc => by cases hc
  | cons c t ih =>
    rw [len_cons, List.length_cons] at hlen
    have hpos := c.utf8Size_pos
    have hle := length_le_len t
    have htail := ih (fun d hd => h d (List.mem_cons_of_mem _ hd)) (by omega)
    intro d hd
    rcases List.mem_cons.1 hd with rfl | hd
    · exact digitValue_of_utf8Size (h d List.mem_cons_self) (by omega)
    · exact htail d hd

/-- A text that is not of ASCII digits is no number. -/
theorem parse_eq_none (h : ¬AsciiDigits t) : Decimal.parse t = none := by
  cases hp : Decimal.parse t with
  | none => rfl
  | some v =>
    rw [(Decimal.eq_pad_of_parse hp).1] at h
    exact absurd (AsciiDigits.pad _ _) h

theorem parse_pad_le {width v : Nat} (max : Nat) (hw : 0 < width) (hv : v < 10 ^ width)
    (hmax : 10 ^ width ≤ max + 1) (message : String) :
    parseNumber (Decimal.pad width v) max message = .ok v := by
  simp only [parseNumber, Decimal.parse_pad hw hv]
  rw [if_pos (by omega)]

/-- **A component**: digits cut out after digits of ASCII. Either the cut falls inside a character,
or the component is not of ASCII digits, or it is a number. -/
theorem component (start stop max : Nat) (message : String) (hd : Digits t) (hstop : stop ≤ t.length)
    (hlt : start < stop) (hmax : 10 ^ (stop - start) ≤ max + 1) (hascii : AsciiDigits (t.take start)) :
    (¬Boundary t stop ∧ ((slice t start stop).bind fun s => parseNumber s max message) =
        .error .panic) ∨
      (Boundary t stop ∧ ¬AsciiDigits (t.take stop) ∧
        ((slice t start stop).bind fun s => parseNumber s max message) =
          invalidPartition message) ∨
      (AsciiDigits (t.take stop) ∧ ∃ n < 10 ^ (stop - start),
        t.take stop = t.take start ++ Decimal.pad (stop - start) n ∧
        ((slice t start stop).bind fun s => parseNumber s max message) = .ok n) := by
  by_cases hb : Boundary t stop
  · right
    obtain ⟨before, after, ht, hlen⟩ := hb
    have hstart : Text.len (t.take start) = start := by
      rw [hascii.len, List.length_take]
      omega
    -- the ASCII digits in front are a part of what is before the cut
    obtain ⟨s, hs⟩ : ∃ s, before = t.take start ++ s := by
      have hle : start ≤ before.length := by
        by_contra hn
        have hsub : before = (t.take start).take before.length := by
          rw [List.take_take, min_eq_left (by omega), ht, List.take_left]
        have hasc : AsciiDigits before := by
          rw [hsub]
          exact fun c hc => hascii c (List.mem_of_mem_take hc)
        rw [hasc.len] at hlen
        omega
      refine ⟨before.drop start, ?_⟩
      conv_lhs => rw [← List.take_append_drop start before]
      rw [ht, List.take_append_of_le_length hle]
    have hslen : s.len = stop - start := by
      rw [hs, len_append, hstart] at hlen
      omega
    have hslice : slice t start stop = .ok s :=
      slice_ok ⟨t.take start, after, by rw [← hs, ← ht], hstart, hslen⟩
    have hsdigits : Digits s := fun c hc => hd c (by
      rw [ht, hs]
      exact List.mem_append_left _ (List.mem_append_right _ hc))
    by_cases hsa : AsciiDigits s
    · right
      have hlength : s.length = stop - start := by rw [← hsa.len, hslen]
      have htake : t.take stop = t.take start ++ s := by
        have hbl : before.length = stop := by
          rw [hs, List.length_append, List.length_take, hlength]
          omega
        rw [← hs]
        conv_lhs => rw [ht, ← hbl]
        exact List.take_left
      obtain ⟨v, hv⟩ := Decimal.parse_isSome (t := s)
        (fun h => by simp [h] at hlength; omega) hsa
      obtain ⟨hpad, hvlt⟩ := Decimal.eq_pad_of_parse hv
      rw [hlength] at hpad hvlt
      refine ⟨by rw [htake]; exact hascii.append hsa, v, hvlt, by rw [htake, ← hpad], ?_⟩
      rw [hslice]
      show parseNumber s max message = .ok v
      rw [hpad]
      exact parse_pad_le max (by omega) hvlt hmax message
    · left
      refine ⟨⟨before, after, ht, hlen⟩, fun hall => hsa ?_, ?_⟩
      · have htl : Text.len (t.take stop) = stop := by rw [hall.len, List.length_take]; omega
        -- both end after the same number of bytes
        have heq : before = t.take stop := by
          have hdrop₁ : takeBytes stop t = some before := takeBytes_eq_some.2 ⟨after, ht, hlen⟩
          have hdrop₂ : takeBytes stop t = some (t.take stop) :=
            takeBytes_eq_some.2 ⟨t.drop stop, (List.take_append_drop stop t).symm, htl⟩
          exact Option.some.inj (hdrop₁.symm.trans hdrop₂)
        intro c hc
        exact hall c (by rw [← heq, hs]; exact List.mem_append_right _ hc)
      · rw [hslice]
        show parseNumber s max message = _
        simp only [parseNumber, parse_eq_none hsa]
  · exact .inl ⟨hb, by rw [slice_panic hlt.le hb]; rfl⟩

end DigitTexts

/-! ## What the regular expression matches -/

/-- The time and the ordinal as they stand in a name. -/
def timePart : Option Text → Text
  | none => []
  | some time => 'T' :: time

def ordinalPart : Option Text → Text
  | none => []
  | some ordinal => '_' :: ordinal

/-- The name is of the form of the regular expression, with these groups. -/
structure Matched (name : Text) (caps : Captures) : Prop where
  text : name =
    namePrefix ++ (caps.date ++ (timePart caps.time ++ (ordinalPart caps.ordinal ++ nameSuffix)))
  date : Digits caps.date ∧ caps.date.length = 8
  time : ∀ time, caps.time = some time → Digits time ∧ (time.length = 2 ∨ time.length = 4)
  ordinal : ∀ ordinal, caps.ordinal = some ordinal → Digits ordinal ∧ ordinal.length = 6

section Captures

variable {t rest ds : Text} {n : Nat} {c : Char}

theorem takeDigits_eq_some :
    takeDigits n t = some (ds, rest) ↔ t = ds ++ rest ∧ ds.length = n ∧ Digits ds := by
  induction n generalizing t ds with
  | zero =>
    simp only [takeDigits, Option.some.injEq, Prod.mk.injEq, List.length_eq_zero_iff]
    constructor
    · rintro ⟨rfl, rfl⟩
      exact ⟨rfl, rfl, fun c hc => by cases hc⟩
    · rintro ⟨h, rfl, -⟩
      exact ⟨rfl, by simpa using h⟩
  | succ n ih =>
    cases t with
    | nil =>
      simp only [takeDigits, reduceCtorEq, false_iff]
      rintro ⟨h, hlen, -⟩
      obtain ⟨rfl, -⟩ : ds = [] ∧ rest = [] := by simpa using h
      cases hlen
    | cons c t =>
      simp only [takeDigits]
      constructor
      · intro h
        split at h
        · rename_i hc
          obtain ⟨⟨ds', rest'⟩, hds, h⟩ := Option.map_eq_some_iff.1 h
          obtain ⟨rfl, rfl⟩ : c :: ds' = ds ∧ rest' = rest := by simpa using h
          obtain ⟨rfl, hlen, hdigits⟩ := ih.1 hds
          refine ⟨rfl, by simp [hlen], fun d hd => ?_⟩
          rcases List.mem_cons.1 hd with rfl | hd
          · exact hc
          · exact hdigits d hd
        · cases h
      · rintro ⟨h, hlen, hdigits⟩
        cases ds with
        | nil => cases hlen
        | cons d ds =>
          obtain ⟨rfl, rfl⟩ : c = d ∧ t = ds ++ rest := by simpa using h
          have htail := @ih (ds ++ rest) ds |>.2
            ⟨rfl, by simpa using hlen, fun d hd => hdigits d (List.mem_cons_of_mem _ hd)⟩
          rw [if_pos (hdigits c List.mem_cons_self), htail]
          rfl

theorem stripPrefix_eq_some {p : Text} : stripPrefix p t = some rest ↔ t = p ++ rest := by
  induction p generalizing t with
  | nil => simp [stripPrefix]
  | cons c p ih =>
    cases t with
    | nil => simp [stripPrefix]
    | cons d t =>
      by_cases h : c = d
      · simp [stripPrefix, h, ih]
      · simp [stripPrefix, h, Ne.symm h]

theorem captureOrdinal_eq_some {o : Option Text} : captureOrdinal t = some o ↔
    t = ordinalPart o ++ nameSuffix ∧ ∀ ordinal, o = some ordinal → Digits ordinal ∧ ordinal.length = 6 := by
  unfold captureOrdinal
  constructor
  · intro h
    split at h
    · rename_i ht
      obtain rfl : none = o := by simpa using h
      exact ⟨by simpa [ordinalPart] using ht, by simp⟩
    · simp only [Option.bind_eq_bind, Option.bind_eq_some_iff, stripPrefix_eq_some] at h
      obtain ⟨t, rfl, ⟨ordinal, rest⟩, htake, h⟩ := h
      obtain ⟨rfl, hlen, hdigits⟩ := takeDigits_eq_some.1 htake
      split at h
      · rename_i hrest
        obtain rfl : some ordinal = o := by simpa using h
        obtain rfl : rest = nameSuffix := hrest
        refine ⟨rfl, ?_⟩
        rintro _ ⟨⟩
        exact ⟨hdigits, hlen⟩
      · cases h
  · rintro ⟨rfl, ho⟩
    cases o with
    | none => rfl
    | some ordinal =>
      obtain ⟨hdigits, hlen⟩ := ho ordinal rfl
      rw [if_neg (by simp [ordinalPart, nameSuffix])]
      simp only [Option.bind_eq_bind, Option.bind_eq_some_iff, stripPrefix_eq_some]
      exact ⟨ordinal ++ nameSuffix, rfl, (ordinal, nameSuffix),
        takeDigits_eq_some.2 ⟨rfl, hlen, hdigits⟩, by simp⟩

theorem captureTime_eq_some {time o : Option Text} : captureTime n t = some (time, o) ↔
    ∃ ds, time = some ds ∧ Digits ds ∧ ds.length = n ∧ t = timePart time ++ (ordinalPart o ++ nameSuffix) ∧
      ∀ ordinal, o = some ordinal → Digits ordinal ∧ ordinal.length = 6 := by
  unfold captureTime
  simp only [Option.bind_eq_bind, Option.bind_eq_some_iff, stripPrefix_eq_some]
  constructor
  · rintro ⟨t, rfl, ⟨ds, rest⟩, htake, o', ho, h⟩
    obtain ⟨rfl, rfl⟩ : some ds = time ∧ o' = o := by simpa using h
    obtain ⟨rfl, hlen, hdigits⟩ := takeDigits_eq_some.1 htake
    obtain ⟨hrest, hord⟩ := captureOrdinal_eq_some.1 ho
    obtain rfl : rest = ordinalPart o' ++ nameSuffix := hrest
    exact ⟨ds, rfl, hdigits, hlen, rfl, hord⟩
  · rintro ⟨ds, rfl, hdigits, hlen, rfl, ho⟩
    exact ⟨ds ++ (ordinalPart o ++ nameSuffix), rfl, (ds, _),
      takeDigits_eq_some.2 ⟨rfl, hlen, hdigits⟩, o, captureOrdinal_eq_some.2 ⟨rfl, ho⟩, rfl⟩

/-- What stands behind a time begins with neither a digit nor a `T`. -/
theorem head_ordinalPart {o : Option Text} (h : ordinalPart o ++ nameSuffix = c :: rest) :
    isDecimalDigit c = false ∧ c ≠ 'T' := by
  cases o with
  | none =>
    obtain ⟨rfl, -⟩ : '.' = c ∧ _ = rest := by simpa [ordinalPart, nameSuffix] using h
    exact ⟨by decide, by decide⟩
  | some ordinal =>
    obtain ⟨rfl, -⟩ : '_' = c ∧ _ = rest := by simpa [ordinalPart] using h
    exact ⟨by decide, by decide⟩

/-- **The regular expression.** Its alternatives do not overlap. -/
theorem captures_iff {name : Text} {caps : Captures} :
    captures name = some caps ↔ Matched name caps := by
  unfold captures
  simp only [Option.bind_eq_bind, Option.bind_eq_some_iff, stripPrefix_eq_some]
  constructor
  · rintro ⟨t, rfl, ⟨date, rest⟩, htake, ⟨time, ordinal⟩, hrest, h⟩
    obtain rfl : Captures.mk date time ordinal = caps := by simpa using h
    obtain ⟨rfl, hlen, hdigits⟩ := takeDigits_eq_some.1 htake
    have htime : ∀ {n}, n = 2 ∨ n = 4 → captureTime n rest = some (time, ordinal) →
        Matched (namePrefix ++ (date ++ rest)) ⟨date, time, ordinal⟩ := by
      intro n hn hcap
      obtain ⟨ds, rfl, hds, hdslen, rfl, ho⟩ := captureTime_eq_some.1 hcap
      refine ⟨rfl, ⟨hdigits, hlen⟩, ?_, ho⟩
      rintro _ ⟨⟩
      exact ⟨hds, by omega⟩
    simp only [Option.orElse_eq_some, Option.map_eq_some_iff] at hrest
    rcases hrest with hcap | ⟨-, hcap | ⟨-, o, ho, heq⟩⟩
    · exact htime (.inl rfl) hcap
    · exact htime (.inr rfl) hcap
    · obtain ⟨rfl, rfl⟩ : none = time ∧ o = ordinal := by simpa using heq
      obtain ⟨rfl, hord⟩ := captureOrdinal_eq_some.1 ho
      exact ⟨rfl, ⟨hdigits, hlen⟩, by simp, hord⟩
  · rintro ⟨rfl, ⟨hdigits, hlen⟩, htime, ho⟩
    obtain ⟨date, time, ordinal⟩ := caps
    refine ⟨_, rfl, (date, _), takeDigits_eq_some.2 ⟨rfl, hlen, hdigits⟩, (time, ordinal), ?_, rfl⟩
    -- no other number of digits fits in front of the ordinal
    have hno : ∀ n ds' o', captureTime n (timePart time ++ (ordinalPart ordinal ++ nameSuffix)) =
        some (ds', o') → ∃ ds, time = some ds ∧ ds.length = n := by
      intro n time' o' hcap
      obtain ⟨ds', rfl, hds', hlen', htext, -⟩ := captureTime_eq_some.1 hcap
      cases time with
      | none =>
        have := head_ordinalPart (o := ordinal) htext
        exact absurd rfl this.2
      | some ds =>
        refine ⟨ds, rfl, ?_⟩
        have htext : ds ++ (ordinalPart ordinal ++ nameSuffix) =
            ds' ++ (ordinalPart o' ++ nameSuffix) := by simpa [timePart] using htext
        have hds := (htime ds rfl).1
        rcases List.append_eq_append_iff.1 htext with ⟨a, rfl, ha⟩ | ⟨a, rfl, ha⟩
        · cases a with
          | nil => simpa using hlen'
          | cons c a =>
            have hc := (head_ordinalPart ha).1
            have := hds' c (by simp)
            rw [hc] at this
            cases this
        · cases a with
          | nil => simpa using hlen'
          | cons c a =>
            have hc := (head_ordinalPart ha).1
            have := hds c (by simp)
            rw [hc] at this
            cases this
    simp only [Option.orElse_eq_some, Option.map_eq_some_iff]
    cases time with
    | none =>
      refine .inr ⟨?_, .inr ⟨?_, ordinal, captureOrdinal_eq_some.2 ⟨rfl, ho⟩, rfl⟩⟩
      all_goals
        rw [Option.eq_none_iff_forall_ne_some]
        rintro ⟨time', o'⟩ hcap
        obtain ⟨ds, h, -⟩ := hno _ _ _ hcap
        cases h
    | some ds =>
      obtain ⟨hds, h2 | h4⟩ := htime ds rfl
      · exact .inl (captureTime_eq_some.2 ⟨ds, rfl, hds, h2, rfl, ho⟩)
      · refine .inr ⟨?_, .inl (captureTime_eq_some.2 ⟨ds, rfl, hds, h4, rfl, ho⟩)⟩
        rw [Option.eq_none_iff_forall_ne_some]
        rintro ⟨time', o'⟩ hcap
        obtain ⟨_, ⟨⟩, h⟩ := hno _ _ _ hcap
        omega

end Captures

/-! ## Parsing -/

/-- The digits before a component are of ASCII, and the component ends inside a character. -/
def CutAt (t : Text) (start stop : Nat) : Prop := AsciiDigits (t.take start) ∧ ¬Boundary t stop

/-- The ordinal of a name is a number other than zero, if there is one. -/
def OrdinalRead : Option Text → Prop
  | none => True
  | some ordinal => AsciiDigits ordinal ∧ ordinal ≠ Decimal.pad 6 0

/-- The names on which a cut at a byte offset falls inside a character: in the date, or in a time of
two characters behind a date of ASCII digits. -/
def PanicsOn (name : Text) : Prop :=
  ∃ caps, Matched name caps ∧ OrdinalRead caps.ordinal ∧
    (CutAt caps.date 0 4 ∨ CutAt caps.date 4 6 ∨ CutAt caps.date 6 8 ∨
      ∃ year month day time, caps.date = Decimal.pad 4 year ++ (Decimal.pad 2 month ++ Decimal.pad 2 day) ∧
        year < 10000 ∧ month < 100 ∧ day < 100 ∧ (Calendar.Civil.mk year month day).Valid ∧
        caps.time = some time ∧ time.len = 4 ∧ ¬Boundary time 2)

/-- How a part of the parser ends: with the value it should have, with an error where there is none,
or with a panic. -/
inductive Outcome {α : Type} (ok : α → Prop) (panics : Prop) : Except Abort α → Prop where
  | value (a : α) (h : ok a) (hp : ¬panics) : Outcome ok panics (.ok a)
  | invalid (message : String) (hno : ∀ a, ¬ok a) (hp : ¬panics) :
      Outcome ok panics (invalidPartition message)
  | panic (hno : ∀ a, ¬ok a) (hp : panics) : Outcome ok panics (.error .panic)

section Parsing

variable {t date time : Text}

theorem AsciiDigits.boundary {n : Nat} (h : AsciiDigits t) (hn : n ≤ t.length) : Boundary t n := by
  refine ⟨t.take n, t.drop n, (List.take_append_drop n t).symm, ?_⟩
  have htake : AsciiDigits (t.take n) := fun c hc => h c (List.mem_of_mem_take hc)
  rw [htake.len, List.length_take]
  omega

theorem AsciiDigits.take_le {m n : Nat} (h : AsciiDigits (t.take n)) (hle : m ≤ n) :
    AsciiDigits (t.take m) := fun c hc => h c (by
  rw [← min_eq_left hle, ← List.take_take] at hc
  exact List.mem_of_mem_take hc)

theorem parseDateComponents_eq (date : Text) : parseDateComponents date =
    ((slice date 0 4).bind fun s => parseNumber s (2 ^ 31 - 1) "Invalid year in partition name").bind
      fun year => ((slice date 4 6).bind fun s =>
        parseNumber s 255 "Invalid month in partition name").bind
          fun month => ((slice date 6 8).bind fun s =>
            parseNumber s 255 "Invalid day in partition name").bind fun day => .ok (year, month, day) := by
  unfold parseDateComponents
  simp only [Bind.bind, pure, Except.pure]
  cases slice date 0 4 with
  | error e => rfl
  | ok yearText =>
    refine congrArg (Except.bind (parseNumber yearText _ _)) (funext fun year => ?_)
    cases slice date 4 6 with
    | error e => rfl
    | ok monthText =>
      refine congrArg (Except.bind (parseNumber monthText _ _)) (funext fun month => ?_)
      cases slice date 6 8 <;> rfl

/-- The date of a name. -/
theorem outcome_parseDateComponents (hd : Digits date) (hlen : date.length = 8) :
    Outcome (fun v : Nat × Nat × Nat => date = Decimal.pad 4 v.1 ++ (Decimal.pad 2 v.2.1 ++
        Decimal.pad 2 v.2.2) ∧ v.1 < 10000 ∧ v.2.1 < 100 ∧ v.2.2 < 100)
      (CutAt date 0 4 ∨ CutAt date 4 6 ∨ CutAt date 6 8) (parseDateComponents date) := by
  -- a date that is read is of ASCII digits
  have hread : ∀ n : Nat, ¬AsciiDigits (date.take n) → ∀ v : Nat × Nat × Nat,
      ¬(date = Decimal.pad 4 v.1 ++ (Decimal.pad 2 v.2.1 ++ Decimal.pad 2 v.2.2) ∧ v.1 < 10000 ∧
        v.2.1 < 100 ∧ v.2.2 < 100) := by
    rintro n hn v ⟨h, -⟩
    refine hn fun c hc => ?_
    have := List.mem_of_mem_take hc
    rw [h] at this
    exact (AsciiDigits.pad _ _).append ((AsciiDigits.pad _ _).append (AsciiDigits.pad _ _)) c this
  have hcut : ∀ n, n ≤ 8 → ¬Boundary date n → ¬AsciiDigits (date.take 8) := fun n hn hb ha =>
    hb (AsciiDigits.boundary (by rwa [← hlen, List.take_length] at ha) (by omega))
  rw [parseDateComponents_eq]
  rcases component 0 4 (2 ^ 31 - 1) "Invalid year in partition name" hd
    (by omega) (by decide) (by decide) (by simp [AsciiDigits]) with
    ⟨hb, hr⟩ | ⟨hb, hna, hr⟩ | ⟨ha₄, year, hyear, htake₄, hr⟩
  · rw [hr]
    exact .panic (hread 8 (hcut 4 (by omega) hb)) (.inl ⟨by simp [AsciiDigits], hb⟩)
  · rw [hr]
    refine .invalid _ (hread 4 hna) ?_
    rintro (⟨-, h⟩ | ⟨h, -⟩ | ⟨h, -⟩)
    · exact h hb
    · exact hna h
    · exact hna (h.take_le (by decide))
  rw [hr]
  have hb₄ : Boundary date 4 := by
    obtain ⟨b, a, hba, hbl⟩ := ha₄.boundary (n := 4) (by rw [List.length_take]; omega)
    exact ⟨b, a ++ date.drop 4, by rw [← List.append_assoc, ← hba, List.take_append_drop], hbl⟩
  show Outcome _ _ (Except.bind (Except.bind _ _) _)
  rcases component 4 6 255 "Invalid month in partition name" hd
    (by omega) (by decide) (by decide) ha₄ with
    ⟨hb, hr⟩ | ⟨hb, hna, hr⟩ | ⟨ha₆, month, hmonth, htake₆, hr⟩
  · rw [hr]
    exact .panic (hread 8 (hcut 6 (by omega) hb)) (.inr (.inl ⟨ha₄, hb⟩))
  · rw [hr]
    refine .invalid _ (hread 6 hna) ?_
    rintro (⟨-, h⟩ | ⟨-, h⟩ | ⟨h, -⟩)
    · exact h hb₄
    · exact h hb
    · exact hna h
  rw [hr]
  have hb₆ : Boundary date 6 := by
    obtain ⟨b, a, hba, hbl⟩ := ha₆.boundary (n := 6) (by rw [List.length_take]; omega)
    exact ⟨b, a ++ date.drop 6, by rw [← List.append_assoc, ← hba, List.take_append_drop], hbl⟩
  show Outcome _ _ (Except.bind (Except.bind _ _) _)
  rcases component 6 8 255 "Invalid day in partition name" hd
    (by omega) (by decide) (by decide) ha₆ with
    ⟨hb, hr⟩ | ⟨hb, hna, hr⟩ | ⟨ha₈, day, hday, htake₈, hr⟩
  · rw [hr]
    exact .panic (hread 8 (hcut 8 le_rfl hb)) (.inr (.inr ⟨ha₆, hb⟩))
  · rw [hr]
    refine .invalid _ (hread 8 hna) ?_
    rintro (⟨-, h⟩ | ⟨-, h⟩ | ⟨-, h⟩)
    · exact h hb₄
    · exact h hb₆
    · exact h hb
  rw [hr]
  refine .value (year, month, day) ⟨?_, hyear, hmonth, hday⟩ ?_
  · have hall : date = date.take 8 := by rw [← hlen, List.take_length]
    rw [hall, htake₈, htake₆, htake₄]
    simp
  · have hall : AsciiDigits date := by rwa [← hlen, List.take_length] at ha₈
    rintro (⟨-, h⟩ | ⟨-, h⟩ | ⟨-, h⟩)
    · exact h hb₄
    · exact h hb₆
    · exact h (hall.boundary (by omega))

theorem parseTimeComponent_two (h : time.len = 2) : parseTimeComponent time =
    ((slice time 0 2).bind fun s => parseNumber s 255 "Invalid hour in partition name").bind
      fun hour => .ok (hour, none) := by
  unfold parseTimeComponent
  rw [if_pos h]
  simp only [Bind.bind, pure, Except.pure]
  cases slice time 0 2 <;> rfl

theorem parseTimeComponent_four (h : time.len = 4) : parseTimeComponent time =
    ((slice time 0 2).bind fun s => parseNumber s 255 "Invalid hour in partition name").bind
      fun hour => ((slice time 2 4).bind fun s =>
        parseNumber s 255 "Invalid minute in partition name").bind
          fun minute => .ok (hour, some minute) := by
  unfold parseTimeComponent
  rw [if_neg (by omega), if_pos h]
  simp only [Bind.bind, pure, Except.pure]
  cases slice time 0 2 with
  | error e => rfl
  | ok hourText =>
    refine congrArg (Except.bind (parseNumber hourText _ _)) (funext fun hour => ?_)
    cases slice time 2 4 <;> rfl

/-- The digits of a time of day. -/
def timeDigits : Nat × Option Nat → Text
  | (hour, none) => Decimal.pad 2 hour
  | (hour, some minute) => Decimal.pad 2 hour ++ Decimal.pad 2 minute

theorem asciiDigits_timeDigits (v : Nat × Option Nat) : AsciiDigits (timeDigits v) := by
  obtain ⟨hour, minute⟩ := v
  cases minute with
  | none => exact AsciiDigits.pad _ _
  | some minute => exact (AsciiDigits.pad _ _).append (AsciiDigits.pad _ _)

/-- A time of day has one text. -/
theorem timeDigits_injective {v v' : Nat × Option Nat} (h : timeDigits v = timeDigits v')
    (hv : v.1 < 100 ∧ v.2.getD 0 < 100) (hv' : v'.1 < 100 ∧ v'.2.getD 0 < 100) : v = v' := by
  obtain ⟨hour, minute⟩ := v
  obtain ⟨hour', minute'⟩ := v'
  cases minute with
  | none =>
    cases minute' with
    | none =>
      obtain rfl : hour = hour' := Decimal.pad_injective hv.1 hv'.1 h
      rfl
    | some minute' => exact absurd (congrArg List.length h) (by simp [timeDigits])
  | some minute =>
    cases minute' with
    | none => exact absurd (congrArg List.length h) (by simp [timeDigits])
    | some minute' =>
      obtain ⟨hh, hm⟩ := List.append_inj h (by simp)
      obtain rfl : hour = hour' := Decimal.pad_injective hv.1 hv'.1 hh
      obtain rfl : minute = minute' := Decimal.pad_injective hv.2 hv'.2 hm
      rfl

/-- The time of day of a name. -/
theorem outcome_parseTimeComponent (hd : Digits time) (hlen : time.length = 2 ∨ time.length = 4) :
    Outcome (fun v : Nat × Option Nat => time = timeDigits v ∧ v.1 < 100 ∧ v.2.getD 0 < 100)
      (time.len = 4 ∧ ¬Boundary time 2) (parseTimeComponent time) := by
  -- the digits of a label are ASCII
  have hread : ¬AsciiDigits time → ∀ v : Nat × Option Nat,
      ¬(time = timeDigits v ∧ v.1 < 100 ∧ v.2.getD 0 < 100) := by
    rintro hn v ⟨h, -⟩
    exact hn (by rw [h]; exact asciiDigits_timeDigits v)
  have hle := length_le_len time
  have hempty : AsciiDigits (time.take 0) := by simp [AsciiDigits]
  by_cases h2 : time.len = 2
  · have ha : AsciiDigits time := hd.ascii (by omega)
    have hlen2 : time.length = 2 := by rw [← ha.len, h2]
    rw [parseTimeComponent_two h2]
    rcases component 0 2 255 "Invalid hour in partition name" hd
      (by omega) (by decide) (by decide) hempty with
      ⟨hb, -⟩ | ⟨-, hna, -⟩ | ⟨-, hour, hhour, htake, hr⟩
    · exact absurd (ha.boundary (by omega)) hb
    · exact absurd (fun c hc => ha c (List.mem_of_mem_take hc)) hna
    · rw [hr]
      refine .value (hour, none) ⟨?_, hhour, by simp⟩ fun h => by omega
      have hall : time.take 2 = time := by rw [← hlen2, List.take_length]
      rw [hall] at htake
      simpa [timeDigits] using htake
  by_cases h4 : time.len = 4
  · rw [parseTimeComponent_four h4]
    -- the hour: a panic in the middle of a character, or two digits
    rcases component 0 2 255 "Invalid hour in partition name" hd
      (by omega) (by decide) (by decide) hempty with
      ⟨hb, hr⟩ | ⟨hb, hna, hr⟩ | ⟨ha₂, hour, hhour, htake, hr⟩
    · rw [hr]
      exact .panic (hread fun ha => hb (ha.boundary (by omega))) ⟨h4, hb⟩
    · rw [hr]
      exact .invalid _ (hread fun ha => hna fun c hc => ha c (List.mem_of_mem_take hc))
        fun h => h.2 hb
    · -- two characters of ASCII take two bytes
      have hlen4 : time.length = 4 := by
        rcases hlen with hlen | hlen
        · rw [← hlen, List.take_length] at ha₂
          have := ha₂.len
          omega
        · exact hlen
      have ha : AsciiDigits time := hd.ascii (by omega)
      rw [hr]
      show Outcome _ _ (Except.bind (Except.bind _ _) _)
      rcases component 2 4 255 "Invalid minute in partition name" hd
        (by omega) (by decide) (by decide) ha₂ with
        ⟨hb, -⟩ | ⟨-, hna, -⟩ | ⟨-, minute, hminute, htake', hr'⟩
      · exact absurd (ha.boundary (by omega)) hb
      · exact absurd (fun c hc => ha c (List.mem_of_mem_take hc)) hna
      · rw [hr']
        refine .value (hour, some minute) ⟨?_, hhour, hminute⟩ fun h => h.2 (ha.boundary (by omega))
        have hall : time.take 4 = time := by rw [← hlen4, List.take_length]
        rw [hall, htake] at htake'
        simpa [timeDigits] using htake'
  · -- no other length is accepted
    unfold parseTimeComponent
    rw [if_neg h2, if_neg h4]
    refine .invalid _ (hread fun ha => ?_) fun h => h4 h.1
    have := ha.len
    omega

/-- The seconds of a date and a time of day. -/
def secondsOf (date : Calendar.Civil) : Option (Nat × Option Nat) → Int
  | none => Calendar.daysFromCivil date * 86400
  | some (hour, minute) =>
    Calendar.daysFromCivil date * 86400 + hour * 3600 + minute.getD 0 * 60

/-- The date and the time of day of a name, as a time. -/
theorem outcome_createDatetime (year month day : Nat) {timeGroup : Option Text} (hy : year < 10000)
    (htime : ∀ t, timeGroup = some t → Digits t ∧ (t.length = 2 ∨ t.length = 4)) :
    Outcome (fun secs : Int => (Calendar.Civil.mk year month day).Valid ∧
        ∃ v : Option (Nat × Option Nat), timeGroup = v.map timeDigits ∧
          (∀ hour minute, v = some (hour, minute) → hour < 24 ∧ minute.getD 0 < 60) ∧
          secs = secondsOf ⟨year, month, day⟩ v)
      ((Calendar.Civil.mk year month day).Valid ∧
        ∃ t, timeGroup = some t ∧ t.len = 4 ∧ ¬Boundary t 2)
      (createDatetime year month day timeGroup) := by
  unfold createDatetime
  by_cases hv : (Calendar.Civil.mk year month day).Valid
  swap
  · have hno : ∀ {P : Prop}, ¬((Calendar.Civil.mk year month day).Valid ∧ P) := fun h => hv h.1
    by_cases hm : 1 ≤ month ∧ month ≤ 12
    · simp only [if_neg (not_not.2 hm), if_pos (show ¬(year ≤ 9999 ∧ _) from fun h => hv h.2)]
      exact .invalid _ (fun _ => hno) hno
    · simp only [if_pos hm]
      exact .invalid _ (fun _ => hno) hno
  have hm : 1 ≤ month ∧ month ≤ 12 := by
    obtain ⟨h₁, h₂, -⟩ := hv
    simp only at h₁ h₂
    omega
  simp only [if_neg (not_not.2 hm), if_neg (not_not.2 (show year ≤ 9999 ∧ _ from ⟨by omega, hv⟩))]
  cases timeGroup with
  | none =>
    show Outcome _ _ (createDatetimeWithTime ⟨year, month, day⟩ 0 none)
    unfold createDatetimeWithTime
    rw [if_pos (by simp)]
    exact .value _ ⟨hv, none, rfl, by simp, by simp [secondsOf]⟩ (by simp)
  | some t =>
    show Outcome _ _ ((parseTimeComponent t).bind fun v =>
      createDatetimeWithTime ⟨year, month, day⟩ v.1 v.2)
    have hout := outcome_parseTimeComponent (htime t rfl).1 (htime t rfl).2
    -- a time of day has one text
    have hread : ∀ {secs : Int}, ((Calendar.Civil.mk year month day).Valid ∧
        ∃ v : Option (Nat × Option Nat), some t = v.map timeDigits ∧
          (∀ hour minute, v = some (hour, minute) → hour < 24 ∧ minute.getD 0 < 60) ∧
          secs = secondsOf ⟨year, month, day⟩ v) →
        ∃ v : Nat × Option Nat, t = timeDigits v ∧ v.1 < 24 ∧ v.2.getD 0 < 60 := by
      rintro secs ⟨-, v, hvt, hb, -⟩
      cases v with
      | none => cases hvt
      | some v => exact ⟨v, Option.some.inj hvt, hb v.1 v.2 rfl⟩
    generalize parseTimeComponent t = r at hout
    cases hout with
    | panic hno hp =>
      refine .panic (fun secs h => ?_) ⟨hv, t, rfl, hp⟩
      obtain ⟨v, hvt, hh, hmin⟩ := hread h
      exact hno v ⟨hvt, by omega, by omega⟩
    | invalid m hno hp =>
      refine .invalid _ (fun secs h => ?_) ?_
      · obtain ⟨v, hvt, hh, hmin⟩ := hread h
        exact hno v ⟨hvt, by omega, by omega⟩
      · rintro ⟨-, _, ⟨⟩, h⟩
        exact hp h
    | value v h hp =>
      have hp' : ¬((Calendar.Civil.mk year month day).Valid ∧
          ∃ t', some t = some t' ∧ t'.len = 4 ∧ ¬Boundary t' 2) := by
        rintro ⟨-, _, ⟨⟩, h⟩
        exact hp h
      show Outcome _ _ (createDatetimeWithTime ⟨year, month, day⟩ v.1 v.2)
      unfold createDatetimeWithTime
      by_cases hb : v.1 < 24 ∧ v.2.getD 0 < 60
      · rw [if_pos hb]
        refine .value _ ⟨hv, some v, by rw [h.1]; rfl, ?_, rfl⟩ hp'
        rintro _ _ ⟨⟩
        exact hb
      · rw [if_neg hb]
        refine .invalid _ (fun secs h' => hb ?_) hp'
        obtain ⟨v', hvt, hbound⟩ := hread h'
        rw [timeDigits_injective (h.1.symm.trans hvt) h.2 ⟨by omega, by omega⟩]
        exact hbound

/-- The groups of a name that is written from its parts. -/
theorem matched_text (p : NameParts) (hy : p.year ≤ 9999) : Matched p.text
    ⟨Decimal.pad 4 p.year ++ (Decimal.pad 2 p.month ++ Decimal.pad 2 p.day), p.time.map timeDigits,
      p.ordinal.map (Decimal.pad 6)⟩ := by
  refine ⟨?_, ⟨?_, by simp⟩, ?_, ?_⟩
  · unfold NameParts.text
    congr 2
    obtain ⟨year, month, day, time, ordinal⟩ := p
    congr 1
    · rcases time with _ | ⟨hour, _ | minute⟩ <;> rfl
    · cases ordinal <;> rfl
  · exact ((AsciiDigits.pad _ _).append ((AsciiDigits.pad _ _).append (AsciiDigits.pad _ _))).digits
  · intro t ht
    obtain ⟨⟨hour, minute⟩, -, rfl⟩ := Option.map_eq_some_iff.1 ht
    refine ⟨(asciiDigits_timeDigits _).digits, ?_⟩
    cases minute <;> simp [timeDigits]
  · intro o ho
    obtain ⟨ordinal, -, rfl⟩ := Option.map_eq_some_iff.1 ho
    exact ⟨(AsciiDigits.pad _ _).digits, by simp⟩

theorem NameParts.startMs_eq (p : NameParts) : p.startMs = secondsOf p.date p.time * 1000 := by
  unfold NameParts.startMs
  rcases h : p.time with _ | ⟨hour, minute⟩ <;> rfl

variable {name : Text} {caps : Captures}

/-- The parts of a name are read from its groups. -/
theorem Named.groups {v : Int × Option Nat} (hm : Matched name caps) (h : Named name v) :
    ∃ p : NameParts, p.Valid ∧
      caps.date = Decimal.pad 4 p.year ++ (Decimal.pad 2 p.month ++ Decimal.pad 2 p.day) ∧
      caps.time = p.time.map timeDigits ∧ caps.ordinal = p.ordinal.map (Decimal.pad 6) ∧
      v = (p.startMs, p.ordinal) := by
  obtain ⟨p, hp, rfl, rfl⟩ := h
  have heq := (captures_iff.2 hm).symm.trans (captures_iff.2 (matched_text p hp.year))
  obtain rfl := Option.some.inj heq
  exact ⟨p, hp, rfl, rfl, rfl, rfl⟩

theorem PanicsOn.groups (hm : Matched name caps) (h : PanicsOn name) : OrdinalRead caps.ordinal ∧
    (CutAt caps.date 0 4 ∨ CutAt caps.date 4 6 ∨ CutAt caps.date 6 8 ∨
      ∃ year month day time, caps.date = Decimal.pad 4 year ++ (Decimal.pad 2 month ++ Decimal.pad 2 day) ∧
        year < 10000 ∧ month < 100 ∧ day < 100 ∧ (Calendar.Civil.mk year month day).Valid ∧
        caps.time = some time ∧ time.len = 4 ∧ ¬Boundary time 2) := by
  obtain ⟨caps', hm', h⟩ := h
  obtain rfl := Option.some.inj ((captures_iff.2 hm).symm.trans (captures_iff.2 hm'))
  exact h

theorem NameParts.Valid.bounds {p : NameParts} (h : p.Valid) :
    p.year < 10000 ∧ p.month < 100 ∧ p.day < 100 := by
  have hy := h.year
  obtain ⟨-, hm, -, hd⟩ := h.date
  have hle : Calendar.daysInMonth p.date.year p.date.month ≤ 31 := by
    unfold Calendar.daysInMonth
    repeat' split
    all_goals omega
  simp only [NameParts.date] at hm hd hle
  omega

/-- The rest of the parser, once the ordinal has been read. -/
theorem outcome_afterOrdinal (ordinal : Option Nat) (hm : Matched name caps)
    (ho : caps.ordinal = ordinal.map (Decimal.pad 6))
    (hb : ∀ o, ordinal = some o → 1 ≤ o ∧ o ≤ maxOverflowOrdinal) :
    Outcome (Named name) (PanicsOn name) ((parseDateComponents caps.date).bind fun v =>
      (createDatetime v.1 v.2.1 v.2.2 caps.time).bind fun dt => .ok (dt * 1000, ordinal)) := by
  have hread : OrdinalRead caps.ordinal := by
    rw [ho]
    cases ordinal with
    | none => trivial
    | some o =>
      refine ⟨AsciiDigits.pad _ _, fun h => ?_⟩
      obtain ⟨h₁, h₂⟩ := hb o rfl
      have := @Decimal.pad_injective 6 _ _ (by unfold maxOverflowOrdinal at h₂; omega) (by decide) h
      omega
  have hdate := outcome_parseDateComponents hm.date.1 hm.date.2
  generalize hr : parseDateComponents caps.date = r at hdate
  cases hdate with
  | panic hno hp =>
    refine .panic (fun v h => ?_) ⟨caps, hm, hread, ?_⟩
    · obtain ⟨p, hv, hd, -⟩ := h.groups hm
      obtain ⟨h₁, h₂, h₃⟩ := hv.bounds
      exact hno (p.year, p.month, p.day) ⟨hd, h₁, h₂, h₃⟩
    · rcases hp with h | h | h
      · exact .inl h
      · exact .inr (.inl h)
      · exact .inr (.inr (.inl h))
  | invalid message hno hp =>
    refine .invalid _ (fun v h => ?_) fun h => ?_
    · obtain ⟨p, hv, hd, -⟩ := h.groups hm
      obtain ⟨h₁, h₂, h₃⟩ := hv.bounds
      exact hno (p.year, p.month, p.day) ⟨hd, h₁, h₂, h₃⟩
    · obtain ⟨-, h | h | h | ⟨year, month, day, time, hd, hy, hmo, hday, -⟩⟩ := h.groups hm
      · exact hp (.inl h)
      · exact hp (.inr (.inl h))
      · exact hp (.inr (.inr h))
      · exact hno (year, month, day) ⟨hd, hy, hmo, hday⟩
  | value v h hp =>
    obtain ⟨year, month, day⟩ := v
    obtain ⟨hd, hy, hmo, hday⟩ := h
    simp only at hd hy hmo hday
    -- the date determines its numbers
    have hunique : ∀ year' month' day', caps.date =
        Decimal.pad 4 year' ++ (Decimal.pad 2 month' ++ Decimal.pad 2 day') → year' < 10000 →
        month' < 100 → day' < 100 → year' = year ∧ month' = month ∧ day' = day := by
      intro year' month' day' hd' hy' hmo' hday'
      obtain ⟨h₁, h₂⟩ := List.append_inj (hd'.symm.trans hd) (by simp)
      obtain ⟨h₂, h₃⟩ := List.append_inj h₂ (by simp)
      exact ⟨Decimal.pad_injective hy' hy h₁, Decimal.pad_injective hmo' hmo h₂,
        Decimal.pad_injective hday' hday h₃⟩
    have hpanics : PanicsOn name → (Calendar.Civil.mk year month day).Valid ∧
        ∃ t, caps.time = some t ∧ t.len = 4 ∧ ¬Boundary t 2 := by
      intro h
      obtain ⟨-, h | h | h | ⟨year', month', day', time, hd', hy', hmo', hday', hv, ht⟩⟩ := h.groups hm
      · exact absurd (.inl h) hp
      · exact absurd (.inr (.inl h)) hp
      · exact absurd (.inr (.inr h)) hp
      · obtain ⟨rfl, rfl, rfl⟩ := hunique _ _ _ hd' hy' hmo' hday'
        exact ⟨hv, time, ht⟩
    have hnamed : ∀ v, Named name v → (Calendar.Civil.mk year month day).Valid ∧
        ∃ t : Option (Nat × Option Nat), caps.time = t.map timeDigits ∧
          (∀ hour minute, t = some (hour, minute) → hour < 24 ∧ minute.getD 0 < 60) ∧
          v.1 / 1000 = secondsOf ⟨year, month, day⟩ t := by
      intro v h
      obtain ⟨p, hpv, hd', ht, -, rfl⟩ := h.groups hm
      obtain ⟨h₁, h₂, h₃⟩ := hpv.bounds
      obtain ⟨rfl, rfl, rfl⟩ := hunique _ _ _ hd' h₁ h₂ h₃
      refine ⟨hpv.date, p.time, ht, hpv.time, ?_⟩
      rw [p.startMs_eq]
      exact Int.mul_ediv_cancel _ (by decide)
    show Outcome _ _ ((createDatetime year month day caps.time).bind fun dt =>
      .ok (dt * 1000, ordinal))
    have htime := outcome_createDatetime year month day hy hm.time
    generalize createDatetime year month day caps.time = r at htime
    cases htime with
    | panic hno hp' =>
      refine .panic (fun v h => hno (v.1 / 1000) (hnamed v h)) ⟨caps, hm, hread, .inr (.inr (.inr ?_))⟩
      obtain ⟨hv, t, ht⟩ := hp'
      exact ⟨year, month, day, t, hd, hy, hmo, hday, hv, ht⟩
    | invalid message hno hp' =>
      exact .invalid _ (fun v h => hno (v.1 / 1000) (hnamed v h)) fun h => hp' (hpanics h)
    | value secs h hp' =>
      obtain ⟨hv, t, ht, hbt, rfl⟩ := h
      refine .value _ ⟨⟨year, month, day, t, ordinal⟩, ⟨by simp only; omega, hv, hbt, hb⟩, ?_, ?_⟩
        fun h => hp' (hpanics h)
      · rw [hm.text, hd, ht, ho]
        unfold NameParts.text
        congr 2
        congr 1
        · rcases t with _ | ⟨hour, _ | minute⟩ <;> rfl
        · cases ordinal <;> rfl
      · rw [NameParts.startMs_eq]
        rfl

/-- **How the parser ends** on any text. -/
theorem outcome_parsePartitionName (name : Text) :
    Outcome (Named name) (PanicsOn name) (parsePartitionName name) := by
  cases hcaps : captures name with
  | none =>
    -- no match: neither a name nor a panic
    have hno : ∀ caps, ¬Matched name caps := fun caps hm => by
      rw [captures_iff.2 hm] at hcaps
      cases hcaps
    unfold parsePartitionName
    simp only [hcaps]
    refine .invalid _ ?_ ?_
    · rintro v ⟨p, hp, rfl, -⟩
      exact hno _ (matched_text p hp.year)
    · rintro ⟨caps, hm, -⟩
      exact hno caps hm
  | some caps =>
    have hm := captures_iff.1 hcaps
    cases ho : caps.ordinal with
    | none =>
      have h := outcome_afterOrdinal none hm ho (by simp)
      unfold parsePartitionName
      simp only [hcaps, ho]
      exact h
    | some o =>
      obtain ⟨hdigits, hlen⟩ := hm.ordinal o ho
      by_cases ha : AsciiDigits o
      -- `\d` also matches digits outside ASCII, which `parse` refuses
      swap
      · unfold parsePartitionName
        simp only [hcaps, ho, parseNumber, parse_eq_none ha]
        refine .invalid _ (fun v h => ?_) fun h => ?_
        · obtain ⟨p, -, -, -, hord, -⟩ := h.groups hm
          rw [ho] at hord
          obtain ⟨n, -, rfl⟩ := Option.map_eq_some_iff.1 hord.symm
          exact ha (AsciiDigits.pad _ _)
        · have := (h.groups hm).1
          rw [ho] at this
          exact ha this.1
      · obtain ⟨n, hn⟩ := Decimal.parse_isSome (t := o) (fun h => by simp [h] at hlen) ha
        obtain ⟨hpad, hlt⟩ := Decimal.eq_pad_of_parse hn
        rw [hlen] at hpad hlt
        subst hpad
        have hnum := parse_pad_le (2 ^ 32 - 1) (by decide) hlt (by decide)
        -- the ordinal 000000 is refused
        by_cases hz : n = 0
        · subst hz
          unfold parsePartitionName
          simp only [hcaps, ho, hnum]
          refine .invalid _ (fun v h => ?_) fun h => ?_
          · obtain ⟨p, hp, -, -, hord, -⟩ := h.groups hm
            rw [ho] at hord
            obtain ⟨k, hk, hpad⟩ := Option.map_eq_some_iff.1 hord.symm
            obtain ⟨h₁, h₂⟩ := hp.ordinal k hk
            have := @Decimal.pad_injective 6 _ _ (by unfold maxOverflowOrdinal at h₂; omega)
              (by decide) hpad
            omega
          · have := (h.groups hm).1
            rw [ho] at this
            exact this.2 rfl
        · have h := outcome_afterOrdinal (some n) hm ho (by
            rintro _ ⟨⟩
            unfold maxOverflowOrdinal
            omega)
          unfold parsePartitionName
          simp only [hcaps, ho, hnum]
          have hne : ¬(some n = some 0) := by simpa using hz
          simpa only [Functor.map, Except.map, Bind.bind, Except.bind, pure, Except.pure, hne, if_false]
            using h

/-- A name says one thing. -/
theorem Named.unique {v v' : Int × Option Nat} (h : Named name v) (h' : Named name v') : v = v' := by
  obtain ⟨p, hp, rfl, rfl⟩ := h
  obtain ⟨p', hp', hd, ht, ho, rfl⟩ := h'.groups (matched_text p hp.year)
  obtain ⟨hy, hmo, hday⟩ := hp.bounds
  obtain ⟨hy', hmo', hday'⟩ := hp'.bounds
  obtain ⟨h₁, h₂⟩ := List.append_inj hd (by simp)
  obtain ⟨h₂, h₃⟩ := List.append_inj h₂ (by simp)
  -- the fields have fixed widths, so equal texts have equal numbers
  have hdate : p.date = p'.date := by
    unfold NameParts.date
    rw [Decimal.pad_injective hy hy' h₁, Decimal.pad_injective hmo hmo' h₂,
      Decimal.pad_injective hday hday' h₃]
  -- an hour alone and an hour with minutes differ in length
  have htime : p.time = p'.time := by
    have hb := hp.time
    have hb' := hp'.time
    revert ht hb hb'
    cases p.time with
    | none => cases p'.time <;> simp
    | some t =>
      cases p'.time with
      | none => simp
      | some t' =>
        intro ht hb hb'
        have hb := hb t.1 t.2 rfl
        have hb' := hb' t'.1 t'.2 rfl
        rw [timeDigits_injective (Option.some.inj ht) ⟨by omega, by omega⟩ ⟨by omega, by omega⟩]
  have hord : p.ordinal = p'.ordinal := by
    have hb := hp.ordinal
    have hb' := hp'.ordinal
    revert ho hb hb'
    cases p.ordinal with
    | none => cases p'.ordinal <;> simp
    | some o =>
      cases p'.ordinal with
      | none => simp
      | some o' =>
        intro ho hb hb'
        have hb := hb o rfl
        have hb' := hb' o' rfl
        unfold maxOverflowOrdinal at hb hb'
        rw [Decimal.pad_injective (by omega) (by omega) (Option.some.inj ho)]
  rw [p.startMs_eq, p'.startMs_eq, hdate, htime, hord]

/-- What a name says is read. -/
theorem Named.parse {v : Int × Option Nat} (h : Named name v) : parsePartitionName name = .ok v := by
  have hout := outcome_parsePartitionName name
  generalize parsePartitionName name = r at hout
  cases hout with
  | value v' h' => rw [h.unique h']
  | invalid message hno => exact absurd h (hno v)
  | panic hno => exact absurd h (hno v)

/-- The parser accepts what is named in the grammar and returns an error on any other text. -/
def ParsesExactly (name : Text) : Prop :=
  (∀ v, parsePartitionName name = .ok v ↔ Named name v) ∧
    ((∀ v, ¬Named name v) →
      ∃ message, parsePartitionName name = .error (.es (.invalidPartition message)))

/-- **The parser accepts exactly its grammar** on the texts where no cut falls inside a character. -/
theorem parsePartitionName_exact (name : Text) : ParsesExactly name ↔ ¬PanicsOn name := by
  have hout := outcome_parsePartitionName name
  unfold ParsesExactly
  generalize hr : parsePartitionName name = r at hout
  cases hout with
  | value v h hp =>
    refine iff_of_true ⟨fun v' => ⟨?_, fun h' => by rw [h.unique h']⟩, fun hno => absurd h (hno v)⟩ hp
    rintro ⟨⟩
    exact h
  | invalid message hno hp =>
    refine iff_of_true ⟨fun v => iff_of_false ?_ (hno v), fun _ => ⟨message, rfl⟩⟩ hp
    rintro ⟨⟩
  | panic hno hp =>
    refine iff_of_false ?_ (not_not.2 hp)
    rintro ⟨-, h⟩
    obtain ⟨message, ⟨⟩⟩ := h hno

/-- The day is a zero of ASCII and an Arabic-Indic three, whose second byte is the ninth. -/
def arabicDay : Text := namePrefix ++ ['2', '0', '2', '4', '1', '0', '0', '٣'] ++ nameSuffix

theorem parsesExactly_arabicDay : ¬ParsesExactly arabicDay := by
  have hpanic : parsePartitionName arabicDay = .error .panic := by decide +kernel
  rintro ⟨hok, herr⟩
  obtain ⟨message, h⟩ := herr fun v hv => by
    rw [← hok v, hpanic] at hv
    cases hv
  rw [hpanic] at h
  cases h

end Parsing

/-! ## Generated names -/

section Generating

variable {startMs : Int} {window : Duration} {ordinal : Option Nat}

/-- The length of what a label names, in milliseconds. -/
def labelMs (window : Duration) : Int :=
  if 86400 ≤ window.asSecs then 86400000 else if 3600 ≤ window.asSecs then 3600000 else 60000

/-- The parts of a generated name. -/
def partsOf (startMs : Int) (window : Duration) (ordinal : Option Nat) : NameParts :=
  let secs := startMs / 1000
  let date := Calendar.civilFromDays (secs / 86400)
  let hour := (secs % 86400 / 3600).toNat
  let minute := (secs % 3600 / 60).toNat
  { year := date.year.toNat
    month := date.month.toNat
    day := date.day.toNat
    time :=
      if 86400 ≤ window.asSecs then none
      else if 3600 ≤ window.asSecs then some (hour, none)
      else some (hour, some minute)
    ordinal := ordinal }

theorem date_partsOf (h₀ : -62167219200000 ≤ startMs) (h₁ : startMs < 253402300800000) :
    (partsOf startMs window ordinal).date = Calendar.civilFromDays (startMs / 1000 / 86400) := by
  obtain ⟨hm₁, hm₂, hd₁, hd₂⟩ := Calendar.civilFromDays_valid (startMs / 1000 / 86400)
  have hy := @Calendar.year_civilFromDays (startMs / 1000 / 86400) (by omega) (by omega)
  simp only [NameParts.date, partsOf]
  generalize Calendar.civilFromDays (startMs / 1000 / 86400) = c at *
  obtain ⟨year, month, day⟩ := c
  simp only at hm₁ hd₁ hy
  simp only [Calendar.Civil.mk.injEq]
  omega

theorem valid_partsOf (h₀ : -62167219200000 ≤ startMs) (h₁ : startMs < 253402300800000)
    (ho : ∀ o, ordinal = some o → 1 ≤ o ∧ o ≤ maxOverflowOrdinal) :
    (partsOf startMs window ordinal).Valid where
  year := by
    have hy := @Calendar.year_civilFromDays (startMs / 1000 / 86400) (by omega) (by omega)
    simp only [partsOf]
    omega
  date := by
    rw [date_partsOf h₀ h₁]
    exact Calendar.civilFromDays_valid _
  time := by
    intro hour minute h
    simp only [partsOf] at h
    split at h
    · cases h
    · split at h
      · obtain ⟨rfl, rfl⟩ : (startMs / 1000 % 86400 / 3600).toNat = hour ∧ none = minute := by
          simpa using h
        simp only [Option.getD_none]
        omega
      · obtain ⟨rfl, rfl⟩ : (startMs / 1000 % 86400 / 3600).toNat = hour ∧
            some (startMs / 1000 % 3600 / 60).toNat = minute := by simpa using h
        simp only [Option.getD_some]
        omega
  ordinal := ho

/-- The label names the time rounded down. -/
theorem startMs_partsOf (h₀ : -62167219200000 ≤ startMs) (h₁ : startMs < 253402300800000) :
    (partsOf startMs window ordinal).startMs = startMs - startMs % labelMs window := by
  rw [NameParts.startMs_eq, date_partsOf h₀ h₁]
  simp only [partsOf, labelMs]
  split
  · rw [secondsOf, Calendar.daysFromCivil_civilFromDays]
    omega
  · split
    · rw [secondsOf, Calendar.daysFromCivil_civilFromDays]
      simp only [Option.getD_none]
      omega
    · rw [secondsOf, Calendar.daysFromCivil_civilFromDays]
      simp only [Option.getD_some]
      omega

theorem labelFor_eq (ordinal : Option Nat) (h₀ : -62167219200000 ≤ startMs) (h₁ : startMs < 253402300800000) :
    labelFor startMs window = .ok (Decimal.pad 4 (partsOf startMs window ordinal).year ++
      (Decimal.pad 2 (partsOf startMs window ordinal).month ++
        Decimal.pad 2 (partsOf startMs window ordinal).day) ++
      timeText (partsOf startMs window ordinal).time) := by
  have hy := @Calendar.year_civilFromDays (startMs / 1000 / 86400) (by omega) (by omega)
  have hsome : OffsetDateTime.fromUnixTimestampNanos (startMs * 1000000) =
      some ⟨startMs * 1000000, by unfold minNanos; omega, by unfold supNanos; omega⟩ := by
    unfold OffsetDateTime.fromUnixTimestampNanos
    rw [dif_pos ⟨by unfold minNanos; omega, by unfold supNanos; omega⟩]
  have hsecs : startMs * 1000000 / 1000000000 = startMs / 1000 := by omega
  unfold labelFor
  simp only [hsome, OffsetDateTime.unixTimestamp, hsecs, partsOf]
  have hyear : yearText (Calendar.civilFromDays (startMs / 1000 / 86400)).year =
      Decimal.pad 4 (Calendar.civilFromDays (startMs / 1000 / 86400)).year.toNat := by
    unfold yearText
    rw [if_neg (by omega)]
  rw [hyear]
  split
  · simp [timeText, pad2]
  · split
    · simp [timeText, pad2]
    · simp [timeText, pad2]

/-- **A generated name** is written from the parts of its start. -/
theorem generatePartitionName_eq (h₀ : -62167219200000 ≤ startMs) (h₁ : startMs < 253402300800000)
    (ho : ∀ o, ordinal = some o → 1 ≤ o ∧ o ≤ maxOverflowOrdinal) :
    generatePartitionName startMs window ordinal = .ok (partsOf startMs window ordinal).text := by
  unfold generatePartitionName
  rw [labelFor_eq ordinal h₀ h₁]
  cases ordinal with
  | none => simp [Bind.bind, Except.bind, pure, Except.pure, NameParts.text, partsOf, ordinalText]
  | some o =>
    have hb := ho o rfl
    simp [Bind.bind, Except.bind, pure, Except.pure, NameParts.text, partsOf, ordinalText, hb]

/-- The name of a window start is read back as the start and the ordinal. -/
def RoundTrips (startMs : Int) (window : Duration) (ordinal : Option Nat) : Prop :=
  ∃ name, generatePartitionName startMs window ordinal = .ok name ∧
    parsePartitionName name = .ok (startMs, ordinal)

theorem roundTrips_iff (h₀ : -62167219200000 ≤ startMs) (h₁ : startMs < 253402300800000)
    (ho : ∀ o, ordinal = some o → 1 ≤ o ∧ o ≤ maxOverflowOrdinal) :
    RoundTrips startMs window ordinal ↔ labelMs window ∣ startMs := by
  have hnamed : Named (partsOf startMs window ordinal).text
      ((partsOf startMs window ordinal).startMs, ordinal) :=
    ⟨_, valid_partsOf h₀ h₁ ho, rfl, rfl⟩
  unfold RoundTrips
  rw [generatePartitionName_eq h₀ h₁ ho]
  simp only [Except.ok.injEq, exists_eq_left', hnamed.parse, startMs_partsOf h₀ h₁, Prod.mk.injEq,
    and_true]
  rw [Int.dvd_iff_emod_eq_zero]
  omega

/-- A window of at least a millisecond that fits in 64 bits floors as it should. -/
theorem floorToWindowMs_eq {nowMs : Int} (hw : 1 ≤ window.asMillis) (hw' : window.asMillis < 2 ^ 63)
    (h₀ : 0 ≤ nowMs) :
    floorToWindowMs nowMs window = some (nowMs / window.asMillis * window.asMillis) := by
  have hms : windowMs window = window.asMillis := by
    unfold windowMs toI64
    rw [Nat.mod_eq_of_lt (by omega), if_pos hw']
  unfold floorToWindowMs
  simp only [hms]
  rw [if_neg (by omega), if_neg (by omega), Int.tdiv_eq_ediv_of_nonneg h₀]

/-- A window of a time between the epoch and the year 9999 starts there as well. -/
theorem floor_bounds {nowMs : Int} (hw : 1 ≤ window.asMillis) (h₀ : 0 ≤ nowMs)
    (h₁ : nowMs < 253402300800000) :
    0 ≤ nowMs / window.asMillis * window.asMillis ∧
      nowMs / window.asMillis * window.asMillis < 253402300800000 := by
  have hpos : (0 : Int) < window.asMillis := by omega
  have hle := Int.ediv_mul_le nowMs hpos.ne'
  have hdiv := Int.ediv_nonneg h₀ hpos.le
  exact ⟨Int.mul_nonneg hdiv hpos.le, by omega⟩

/-- **Names round-trip** if and only if the start of the window is a whole number of days, hours or
minutes, whichever the label names. -/
theorem floor_roundTrips_iff {nowMs : Int} (hw : 1 ≤ window.asMillis)
    (hw' : window.asMillis < 2 ^ 63) (h₀ : 0 ≤ nowMs) (h₁ : nowMs < 253402300800000)
    (ho : ∀ o, ordinal = some o → 1 ≤ o ∧ o ≤ maxOverflowOrdinal) :
    (∃ start, floorToWindowMs nowMs window = some start ∧ RoundTrips start window ordinal) ↔
      labelMs window ∣ nowMs / window.asMillis * window.asMillis := by
  obtain ⟨hs₀, hs₁⟩ := floor_bounds hw h₀ h₁
  rw [floorToWindowMs_eq hw hw' h₀]
  simp only [Option.some.injEq, exists_eq_left']
  exact roundTrips_iff (by omega) hs₁ ho

/-- The second window of 90 seconds starts half a minute after the minute that its label names. -/
theorem not_roundTrips_ninetySeconds :
    ¬∃ start, floorToWindowMs 90000 (.fromSecs 90 (by decide)) = some start ∧
      RoundTrips start (.fromSecs 90 (by decide)) none := by
  rintro ⟨start, hstart, h⟩
  rw [floorToWindowMs_eq (by decide) (by decide) (by decide)] at hstart
  obtain rfl := Option.some.inj hstart
  have hdvd := (roundTrips_iff (by decide) (by decide) (by simp)).1 h
  exact absurd hdvd (by decide)

end Generating

end Events
