import Mathlib.Tactic.Common
import Mathlib.Algebra.Order.Ring.Nat
import Mathlib.Tactic.Ring
import Mathlib.Tactic.IntervalCases
import Mathlib.Data.List.Induction

/-!
# Decimal numbers of a fixed width

* **`pad`** — a number as a given number of digits, with zeros in front.
* **`parse`** — the number a text of digits stands for.
* **`parse_pad`**, **`eq_pad_of_parse`** — the round trip, both ways.
-/

namespace Decimal

/-- The character of a digit. -/
def digit (n : Nat) : Char := Char.ofNat (48 + n)

/-- The digit of a character. -/
def digitValue (c : Char) : Option Nat :=
  if 48 ≤ c.toNat ∧ c.toNat ≤ 57 then some (c.toNat - 48) else none

/-- The last `width` digits of `n`. -/
def pad : Nat → Nat → List Char
  | 0, _ => []
  | width + 1, n => pad width (n / 10) ++ [digit (n % 10)]

/-- The number whose first digits make `acc` and whose other digits are the text. -/
def parseFrom (acc : Nat) : List Char → Option Nat
  | [] => some acc
  | c :: cs =>
    match digitValue c with
    | some d => parseFrom (acc * 10 + d) cs
    | none => none

/-- The number a text of digits stands for; a text is not empty. -/
def parse (t : List Char) : Option Nat :=
  if t = [] then none else parseFrom 0 t

theorem toNat_digit {n : Nat} (h : n < 10) : (digit n).toNat = 48 + n := by
  interval_cases n <;> rfl

theorem digitValue_digit {n : Nat} (h : n < 10) : digitValue (digit n) = some n := by
  simp only [digitValue, toNat_digit h]
  rw [if_pos (by omega)]
  congr 1
  omega

@[simp] theorem length_pad (width n : Nat) : (pad width n).length = width := by
  induction width generalizing n with
  | zero => rfl
  | succ width ih => simp [pad, ih]

/-- Every character of a padded number is a digit. -/
theorem digitValue_of_mem_pad {width n : Nat} {c : Char} (h : c ∈ pad width n) :
    ∃ d, d < 10 ∧ c = digit d := by
  induction width generalizing n with
  | zero => cases h
  | succ width ih =>
    simp only [pad, List.mem_append, List.mem_singleton] at h
    rcases h with h | h
    · exact ih h
    · exact ⟨n % 10, by omega, h⟩

theorem parseFrom_append (acc : Nat) (s t : List Char) :
    parseFrom acc (s ++ t) = (parseFrom acc s).bind fun a => parseFrom a t := by
  induction s generalizing acc with
  | nil => rfl
  | cons c s ih =>
    simp only [List.cons_append, parseFrom]
    split
    · exact ih _
    · rfl

theorem parseFrom_pad (acc width n : Nat) :
    parseFrom acc (pad width n) = some (acc * 10 ^ width + n % 10 ^ width) := by
  induction width generalizing n with
  | zero => simp [pad, parseFrom, Nat.mod_one]
  | succ width ih =>
    have hmod : n % 10 ^ (width + 1) = n / 10 % 10 ^ width * 10 + n % 10 := by
      rw [pow_succ', Nat.mod_mul]
      omega
    rw [pad, parseFrom_append, ih]
    simp only [Option.bind_some, parseFrom, digitValue_digit (Nat.mod_lt n (by decide)), hmod]
    rw [pow_succ]
    congr 1
    ring

theorem digit_of_digitValue {c : Char} {d : Nat} (h : digitValue c = some d) : c = digit d ∧ d < 10 := by
  unfold digitValue at h
  split at h
  · rename_i hc
    have hd : c.toNat - 48 = d := by simpa using h
    refine ⟨?_, by omega⟩
    rw [digit, show 48 + d = c.toNat by omega, Char.ofNat_toNat]
  · cases h

/-- A text that stands for a number is that number padded to the length of the text. -/
theorem eq_pad_of_parseFrom {acc v : Nat} {t : List Char} (h : parseFrom acc t = some v) :
    ∃ n < 10 ^ t.length, t = pad t.length n ∧ v = acc * 10 ^ t.length + n := by
  induction t using List.reverseRecOn generalizing v with
  | nil => exact ⟨0, by simp, rfl, by simpa [parseFrom] using h.symm⟩
  | append_singleton t c ih =>
    rw [parseFrom_append] at h
    obtain ⟨a, ha, hc⟩ := Option.bind_eq_some_iff.1 h
    obtain ⟨n, hn, ht, rfl⟩ := ih ha
    simp only [parseFrom] at hc
    split at hc
    · rename_i d hd
      obtain ⟨rfl, hd10⟩ := digit_of_digitValue hd
      have hlen : (t ++ [digit d]).length = t.length + 1 := by simp
      refine ⟨n * 10 + d, ?_, ?_, ?_⟩
      · rw [hlen, pow_succ]
        omega
      · rw [hlen, pad, show (n * 10 + d) / 10 = n by omega, show (n * 10 + d) % 10 = d by omega, ← ht]
      · rw [hlen, pow_succ, ← Option.some.inj hc]
        ring
    · cases hc

theorem eq_pad_of_parse {t : List Char} {v : Nat} (h : parse t = some v) :
    t = pad t.length v ∧ v < 10 ^ t.length := by
  unfold parse at h
  split at h
  · cases h
  · obtain ⟨n, hn, ht, rfl⟩ := eq_pad_of_parseFrom h
    simp only [Nat.zero_mul, Nat.zero_add]
    exact ⟨ht, hn⟩

/-- Every text of digits stands for a number. -/
theorem parse_isSome {t : List Char} (hne : t ≠ []) (h : ∀ c ∈ t, (digitValue c).isSome) :
    ∃ v, parse t = some v := by
  have hfrom : ∀ (t : List Char) (acc : Nat), (∀ c ∈ t, (digitValue c).isSome) →
      ∃ v, parseFrom acc t = some v := by
    intro t
    induction t with
    | nil => exact fun acc _ => ⟨acc, rfl⟩
    | cons c t ih =>
      intro acc h
      obtain ⟨d, hd⟩ := Option.isSome_iff_exists.1 (h c List.mem_cons_self)
      simp only [parseFrom, hd]
      exact ih _ fun c hc => h c (List.mem_cons_of_mem _ hc)
  rw [parse, if_neg hne]
  exact hfrom t 0 h

theorem digitValue_isSome_of_mem_pad {width n : Nat} {c : Char} (h : c ∈ pad width n) :
    (digitValue c).isSome := by
  obtain ⟨d, hd, rfl⟩ := digitValue_of_mem_pad h
  rw [digitValue_digit hd]
  rfl

/-- **The round trip.** -/
theorem parse_pad {width n : Nat} (hw : 0 < width) (hn : n < 10 ^ width) :
    parse (pad width n) = some n := by
  have hne : pad width n ≠ [] := by
    intro h
    have := length_pad width n
    rw [h] at this
    exact absurd this (by simp; omega)
  rw [parse, if_neg hne, parseFrom_pad, Nat.mod_eq_of_lt hn]
  simp

/-- Numbers of a fixed width have different digits. -/
theorem pad_injective {width m n : Nat} (hm : m < 10 ^ width) (hn : n < 10 ^ width)
    (h : pad width m = pad width n) : m = n := by
  have := parseFrom_pad 0 width m
  rw [h, parseFrom_pad, Nat.mod_eq_of_lt hm, Nat.mod_eq_of_lt hn] at this
  simpa using this.symm

end Decimal
