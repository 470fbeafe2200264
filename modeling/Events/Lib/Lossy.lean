import Mathlib.Data.List.Infix
import Mathlib.Tactic.Common

/-!
# Channels that may drop, and channels that may refuse

Two kinds of channel, each a parameter with laws. The receiver of a lossy one may fall behind: it misses
the oldest values, and is told how many before it gets the next one. A queue drops nothing, and may refuse
a value.

* **`Channel`**, **`Channel.Retains`** — a receiver of a lossy channel, and what it may rely on.
* **`Queue`**, **`Queue.Fifo`** — the same for a queue.
* **`Covers`** — what was heard says what was sent, up to the values of each gap.
* **`Follows`** — the invariant: heard, missed and waiting values are the sent ones, in their order.
* **`ring`**, **`fifo`** — a channel and a queue that have the laws.
-/

namespace Lossy

variable {α : Type} {capacity : Nat}

/-- What a receiver hears: a value, or that it has missed some. -/
inductive Heard (α : Type) where
  | value (a : α)
  | lagged (n : Nat)

/-! ## The parameters -/

/-- A lossy channel, as one of its receivers sees it. -/
structure Channel (α : Type) where
  Receiver : Type
  /-- A receiver that has just subscribed. -/
  new : Receiver
  /-- A value is sent. -/
  deliver : α → Receiver → Receiver
  /-- The next thing to hear, if there is one. -/
  recv : Receiver → Option (Heard α × Receiver)
  /-- The values that wait for the receiver. -/
  waiting : Receiver → List α
  /-- How many values it has missed since it was told. -/
  missed : Receiver → Nat

/-- The laws of a lossy channel. A value that is sent waits behind the others, and the oldest ones go only
while at least `capacity` newer ones wait. A receiver is told how many it has missed before it gets the
next value. How many more than `capacity` values a channel keeps is its own matter. -/
structure Channel.Retains (C : Channel α) (capacity : Nat) : Prop where
  new : C.waiting C.new = [] ∧ C.missed C.new = 0
  deliver : ∀ a r, ∃ dropped, C.waiting r ++ [a] = dropped ++ C.waiting (C.deliver a r) ∧
    C.missed (C.deliver a r) = C.missed r + dropped.length ∧
    (dropped ≠ [] → capacity ≤ (C.waiting (C.deliver a r)).length)
  lagged : ∀ r, C.missed r ≠ 0 → ∃ r', C.recv r = some (.lagged (C.missed r), r') ∧
    C.waiting r' = C.waiting r ∧ C.missed r' = 0
  value : ∀ r a rest, C.missed r = 0 → C.waiting r = a :: rest →
    ∃ r', C.recv r = some (.value a, r') ∧ C.waiting r' = rest ∧ C.missed r' = 0
  empty : ∀ r, C.missed r = 0 → C.waiting r = [] → C.recv r = none

/-- A queue between senders and one receiver. -/
structure Queue (α : Type) where
  State : Type
  new : State
  /-- `none` where the queue does not take the value. -/
  offer : α → State → Option State
  /-- `none` where nothing waits. -/
  recv : State → Option (α × State)
  /-- The values that wait. -/
  waiting : State → List α

/-- The laws of a queue: values come out as they went in, none is lost, and at most `capacity` wait. -/
structure Queue.Fifo (K : Queue α) (capacity : Nat) : Prop where
  new : K.waiting K.new = []
  offer : ∀ a q q', K.offer a q = some q' →
    K.waiting q' = K.waiting q ++ [a] ∧ (K.waiting q').length ≤ capacity
  recv : ∀ q a q', K.recv q = some (a, q') → K.waiting q = a :: K.waiting q'
  empty : ∀ q, K.recv q = none → K.waiting q = []

/-! ## What is heard -/

/-- What was heard tells what was sent, in order; `lagged n` stands for `n` values. -/
inductive Covers : List (Heard α) → List α → Prop where
  | nil : Covers [] []
  | value {heard : List (Heard α)} {sent : List α} (h : Covers heard sent) (a : α) :
      Covers (heard ++ [.value a]) (sent ++ [a])
  | lagged {heard : List (Heard α)} {sent : List α} (h : Covers heard sent) (gap : List α) :
      Covers (heard ++ [.lagged gap.length]) (sent ++ gap)

/-- The values among what was heard. -/
def values : List (Heard α) → List α
  | [] => []
  | .value a :: heard => a :: values heard
  | .lagged _ :: heard => values heard

@[simp] theorem values_append (heard heard' : List (Heard α)) :
    values (heard ++ heard') = values heard ++ values heard' := by
  induction heard with
  | nil => rfl
  | cons h heard ih =>
    cases h with
    | value a => exact congrArg (a :: ·) ih
    | lagged n => exact ih

/-- Nothing is heard twice, or out of order. -/
theorem Covers.sublist {heard : List (Heard α)} {sent : List α} (h : Covers heard sent) :
    (values heard).Sublist sent := by
  induction h with
  | nil => exact .slnil
  | value _ a ih =>
    rw [values_append]
    exact ih.append (.refl [a])
  | lagged _ gap ih =>
    rw [values_append, values, values]
    exact ih.append (List.nil_sublist gap)

/-- Without a gap everything that was sent is heard. -/
theorem Covers.complete {heard : List (Heard α)} {sent : List α} (h : Covers heard sent)
    (hgaps : ∀ n, Heard.lagged n ∉ heard) : values heard = sent := by
  induction h with
  | nil => rfl
  | value _ a ih =>
    rw [values_append, ih fun n hn => hgaps n (List.mem_append_left _ hn)]
    rfl
  | lagged _ gap _ => exact absurd (List.mem_append_right _ List.mem_cons_self) (hgaps gap.length)

/-- Heard, missed and waiting values are the sent ones, and something is missed only while at least
`capacity` newer values wait. -/
structure Follows (C : Channel α) (capacity : Nat) (r : C.Receiver) (heard : List (Heard α))
    (sent : List α) : Prop where
  covers : ∃ before gap, Covers heard before ∧ gap.length = C.missed r ∧
    sent = before ++ gap ++ C.waiting r
  full : C.missed r ≠ 0 → capacity ≤ (C.waiting r).length

section Follows

variable {C : Channel α} {r r' : C.Receiver} {heard : List (Heard α)} {sent : List α} {h : Heard α}

theorem follows_new (hC : C.Retains capacity) : Follows C capacity C.new [] [] where
  covers := ⟨[], [], .nil, hC.new.2.symm, by rw [hC.new.1]; rfl⟩
  full := fun hne => absurd hC.new.2 hne

/-- A value is sent: what is dropped of the waiting values joins those that were missed. -/
theorem Follows.deliver (hC : C.Retains capacity) (hf : Follows C capacity r heard sent) (a : α) :
    Follows C capacity (C.deliver a r) heard (sent ++ [a]) := by
  obtain ⟨before, gap, hcovers, hgap, rfl⟩ := hf.covers
  obtain ⟨dropped, hwaiting, hmissed, hkept⟩ := hC.deliver a r
  refine ⟨⟨before, gap ++ dropped, hcovers, ?_, ?_⟩, fun hne => ?_⟩
  · rw [List.length_append, hgap, hmissed]
  · rw [List.append_assoc, hwaiting]
    simp only [List.append_assoc]
  · by_cases hnil : dropped = []
    · -- nothing is dropped, so the receiver was behind before
      subst hnil
      rw [List.length_nil, Nat.add_zero] at hmissed
      have hlength := congrArg List.length hwaiting
      rw [List.nil_append, List.length_append] at hlength
      rw [← hlength]
      exact (hf.full (hmissed ▸ hne)).trans (Nat.le_add_right _ _)
    · exact hkept hnil

/-- The receiver hears the next thing, a gap before any value. -/
theorem Follows.recv (hC : C.Retains capacity) (hf : Follows C capacity r heard sent)
    (hrecv : C.recv r = some (h, r')) : Follows C capacity r' (heard ++ [h]) sent := by
  obtain ⟨before, gap, hcovers, hgap, rfl⟩ := hf.covers
  by_cases hmissed : C.missed r = 0
  · have hnil : gap = [] := List.length_eq_zero_iff.1 (hgap.trans hmissed)
    subst hnil
    cases hwaiting : C.waiting r with
    | nil =>
      rw [hC.empty r hmissed hwaiting] at hrecv
      cases hrecv
    | cons a rest =>
      obtain ⟨r₁, heq, hrest, hnone⟩ := hC.value r a rest hmissed hwaiting
      rw [heq] at hrecv
      cases hrecv
      refine ⟨⟨before ++ [a], [], hcovers.value a, hnone.symm, by simp [hrest]⟩, fun hne => ?_⟩
      exact absurd hnone hne
  · obtain ⟨r₁, heq, hsame, hnone⟩ := hC.lagged r hmissed
    rw [heq] at hrecv
    cases hrecv
    refine ⟨⟨before ++ gap, [], ?_, hnone.symm, by simp [hsame]⟩, fun hne => absurd hnone hne⟩
    rw [← hgap]
    exact hcovers.lagged gap

end Follows

/-! ## A channel and a queue that have the laws -/

/-- Every receiver may fall behind by `slots` values. -/
def ring (slots : Nat) : Channel α where
  Receiver := List α × Nat
  new := ([], 0)
  deliver a r := if r.1.length < slots then (r.1 ++ [a], r.2) else (r.1.tail ++ [a], r.2 + 1)
  recv r :=
    if r.2 ≠ 0 then some (.lagged r.2, (r.1, 0))
    else
      match r.1 with
      | [] => none
      | a :: rest => some (.value a, (rest, 0))
  waiting := Prod.fst
  missed := Prod.snd

/-- It retains as much as it has slots, or less. -/
theorem ring_retains {slots : Nat} (hpos : 0 < slots) (hle : capacity ≤ slots) :
    (ring slots : Channel α).Retains capacity where
  new := ⟨rfl, rfl⟩
  deliver := by
    rintro a ⟨queue, missed⟩
    -- the oldest message is lost where every slot is taken
    by_cases hroom : queue.length < slots
    · have hkept : (ring slots).deliver a (queue, missed) = (queue ++ [a], missed) := if_pos hroom
      rw [hkept]
      exact ⟨[], rfl, rfl, fun hne => absurd rfl hne⟩
    · cases queue with
      | nil => exact absurd hpos hroom
      | cons oldest rest =>
        have hfull : (ring slots).deliver a (oldest :: rest, missed) = (rest ++ [a], missed + 1) :=
          if_neg hroom
        rw [hfull]
        refine ⟨[oldest], rfl, rfl, fun _ => ?_⟩
        show capacity ≤ (rest ++ [a]).length
        rw [List.length_append]
        exact hle.trans (Nat.le_of_not_lt hroom)
  lagged := by
    rintro ⟨queue, missed⟩ hne
    exact ⟨(queue, 0), if_pos hne, rfl, rfl⟩
  value := by
    rintro ⟨queue, missed⟩ a rest hmissed hqueue
    obtain rfl : missed = 0 := hmissed
    obtain rfl : queue = a :: rest := hqueue
    exact ⟨(rest, 0), rfl, rfl, rfl⟩
  empty := by
    rintro ⟨queue, missed⟩ hmissed hqueue
    obtain rfl : missed = 0 := hmissed
    obtain rfl : queue = [] := hqueue
    rfl

/-- It takes a value while there is room. -/
def fifo (capacity : Nat) : Queue α where
  State := List α
  new := []
  offer a q := if q.length < capacity then some (q ++ [a]) else none
  recv q :=
    match q with
    | [] => none
    | a :: rest => some (a, rest)
  waiting := id

theorem fifo_fifo : (fifo capacity : Queue α).Fifo capacity where
  new := rfl
  offer := by
    intro a (q : List α) q' h
    obtain ⟨hroom, hq⟩ := Option.ite_none_right_eq_some.1 h
    cases hq
    refine ⟨rfl, ?_⟩
    show (q ++ [a]).length ≤ capacity
    rw [List.length_append]
    exact hroom
  recv := by
    intro q a q' h
    cases q with
    | nil => cases h
    | cons b rest =>
      cases h
      rfl
  empty := by
    intro q h
    cases q with
    | nil => rfl
    | cons b rest => cases h

end Lossy
