import Mathlib.Data.List.Lex
import Events.Lib.Decimal

/-!
# Texts in lexicographic order

Texts that are written in fields of a fixed width compare field by field.

* **`append_lt_append_iff`** — the comparison goes on behind a first field of one width.
* **`pad_lt_pad`** — numbers of a fixed width compare as the texts of their digits.
* **`flatMap_singleton_lt_iff`** — an encoding that keeps the order of characters keeps that of texts.
-/

namespace LexOrder

variable {α β : Type} [LT α] [LT β]

/-- **Two texts that start with fields of one width** compare by the fields, and by what follows where
these are the same. -/
theorem append_lt_append_iff {a b s t : List α} (h : a.length = b.length) :
    a ++ s < b ++ t ↔ a < b ∨ a = b ∧ s < t := by
  induction a generalizing b with
  | nil =>
    obtain rfl := List.length_eq_zero_iff.1 h.symm
    simp
  | cons x a ih =>
    cases b with
    | nil => cases h
    | cons y b =>
      have hlen : a.length = b.length := Nat.succ.inj h
      rw [List.cons_append, List.cons_append, List.cons_lt_cons_iff, List.cons_lt_cons_iff, ih hlen,
        List.cons.injEq]
      tauto

/-- A text compares with the encodings of its characters as it does itself, when these are single
letters in the order of the characters. -/
theorem flatMap_singleton_lt_iff {f : α → List β} {g : α → β} {s t : List α}
    (hf : ∀ x ∈ s ++ t, f x = [g x])
    (hg : ∀ x ∈ s ++ t, ∀ y ∈ s ++ t, (g x < g y ↔ x < y) ∧ (g x = g y → x = y)) :
    s.flatMap f < t.flatMap f ↔ s < t := by
  induction s generalizing t with
  | nil =>
    cases t with
    | nil => simp
    | cons y t => simp [hf y (by simp)]
  | cons x s ih =>
    cases t with
    | nil => simp
    | cons y t =>
      have hsub : s ++ t ⊆ x :: s ++ y :: t := by
        intro z hz
        simp only [List.mem_append, List.mem_cons] at hz ⊢
        tauto
      obtain ⟨hlt, hinj⟩ := hg x (by simp) y (by simp)
      have heq : g x = g y ↔ x = y := ⟨hinj, fun h => by rw [h]⟩
      rw [List.flatMap_cons, List.flatMap_cons, hf x (by simp), hf y (by simp), List.singleton_append,
        List.singleton_append, List.cons_lt_cons_iff, List.cons_lt_cons_iff, hlt, heq,
        ih (fun z hz => hf z (hsub hz)) fun z hz z' hz' => hg z (hsub hz) z' (hsub hz')]

end LexOrder

namespace Decimal

theorem digit_lt_digit {m n : Nat} (hm : m < 10) (hn : n < 10) : digit m < digit n ↔ m < n := by
  rw [Char.lt_def, UInt32.lt_iff_toNat_lt]
  show (digit m).toNat < (digit n).toNat ↔ m < n
  rw [toNat_digit hm, toNat_digit hn]
  omega

/-- **Numbers of a fixed width** compare as their digits. -/
theorem pad_lt_pad {width m n : Nat} (hm : m < 10 ^ width) (hn : n < 10 ^ width) :
    pad width m < pad width n ↔ m < n := by
  induction width generalizing m n with
  | zero =>
    simp only [Nat.pow_zero, Nat.lt_one_iff] at hm hn
    simp [pad, hm, hn]
  | succ width ih =>
    have hm' : m / 10 < 10 ^ width := by
      rw [Nat.pow_succ] at hm
      omega
    have hn' : n / 10 < 10 ^ width := by
      rw [Nat.pow_succ] at hn
      omega
    have hlast : [digit (m % 10)] < [digit (n % 10)] ↔ m % 10 < n % 10 := by
      rw [List.cons_lt_cons_iff]
      simp [digit_lt_digit (Nat.mod_lt m (by decide)) (Nat.mod_lt n (by decide))]
    have hfirst : pad width (m / 10) = pad width (n / 10) ↔ m / 10 = n / 10 :=
      ⟨pad_injective hm' hn', fun h => by rw [h]⟩
    rw [pad, pad, LexOrder.append_lt_append_iff (by simp), ih hm' hn', hlast, hfirst]
    omega

end Decimal
