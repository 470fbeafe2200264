import Mathlib.Tactic.Common

/-!
# Locks taken in one order

Parties hold locks while they wait for others. If whoever waits for a lock holds only locks that rank
below it, the parties never block each other for good.

* **`LockOrder`** — a moment of the system: who is busy, who holds what, who waits for what.
* **`LockOrder.Ascending`** — the discipline.
* **`LockOrder.Ascending.progress`** — while somebody is busy, somebody busy waits for nothing that is
  held.
-/

/-- Who is busy at a moment, which locks each party holds and which ones it waits for. -/
structure LockOrder (Party Lock : Type) where
  busy : Party → Prop
  holds : Party → Lock → Prop
  waits : Party → Lock → Prop

namespace LockOrder

variable {Party Lock : Type} {m : LockOrder Party Lock} {rank : Lock → Nat} {top : Nat}

/-- Only busy parties hold locks, and they wait only for locks that rank above those. -/
structure Ascending (m : LockOrder Party Lock) (rank : Lock → Nat) : Prop where
  busy : ∀ p l, m.holds p l → m.busy p
  below : ∀ p l l', m.holds p l → m.waits p l' → rank l < rank l'

/-- A busy party that waits only for locks of the `n` highest ranks, or for none. -/
theorem Ascending.progress_of_high (h : m.Ascending rank) (htop : ∀ l, rank l < top) (n : Nat)
    {p : Party} (hp : m.busy p) (hhigh : ∀ l, m.waits p l → top ≤ rank l + n) :
    ∃ q, m.busy q ∧ ∀ l, m.waits q l → ∀ r, ¬ m.holds r l := by
  induction n generalizing p with
  | zero =>
    refine ⟨p, hp, fun l hl => ?_⟩
    have hrank := htop l
    have hle := hhigh l hl
    omega
  | succ n ih =>
    by_cases hblocked : ∃ l r, m.waits p l ∧ m.holds r l
    · -- the holder waits for a higher rank
      obtain ⟨l, r, hl, hr⟩ := hblocked
      refine ih (h.busy r l hr) fun l' hl' => ?_
      have hlt := h.below r l l' hr hl'
      have hle := hhigh l hl
      omega
    · exact ⟨p, hp, fun l hl r hr => hblocked ⟨l, r, hl, hr⟩⟩

/-- **Nobody is blocked for good**: while somebody is busy, somebody busy waits for no lock that is
held. -/
theorem Ascending.progress (h : m.Ascending rank) (htop : ∀ l, rank l < top) {p : Party}
    (hp : m.busy p) : ∃ q, m.busy q ∧ ∀ l, m.waits q l → ∀ r, ¬ m.holds r l :=
  h.progress_of_high htop top hp fun l _ => Nat.le_add_left top (rank l)

end LockOrder
