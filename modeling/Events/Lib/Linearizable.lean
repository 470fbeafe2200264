import Mathlib.Logic.Function.Basic

/-!
# Atomic objects

A sequential object answers one request at a time. Its *atomic* version serves concurrent calls:
each takes effect at one moment between its invocation and its response, and that effect is one of
the sequential object. What such an object shows to its callers is a linearizable history.

* **`Object`**, **`Sequential`** — a sequential object and its executions.
* **`Run`** — the runs of the atomic version: the history of invocations and responses, and the
  order in which the calls take effect.
* **`Run.sequential`** — that order is an execution of the sequential object.
-/

namespace Linear

/-- A sequential object: how a request may be answered and what that does to the state. -/
structure Object (Req Ans : Type) where
  State : Type
  step : State → Req → State → Ans → Prop

/-- What a caller sees. -/
inductive Event (T Req Ans : Type) where
  | invoke (t : T) (r : Req)
  | respond (t : T) (a : Ans)

/-- Where a call stands: not made, made, or in effect and about to answer. -/
inductive Status (Req Ans : Type) where
  | idle
  | pending (r : Req)
  | decided (a : Ans)

variable {T Req Ans : Type} [DecidableEq T] {O : Object Req Ans}

structure Config (O : Object Req Ans) (T : Type) where
  state : O.State
  calls : T → Status Req Ans

/-- No call is in progress. -/
def Config.idle (T : Type) (s : O.State) : Config O T := ⟨s, fun _ => .idle⟩

/-- The call `t` now stands at `status`. -/
def Config.set (c : Config O T) (t : T) (status : Status Req Ans) : Config O T :=
  { c with calls := Function.update c.calls t status }

/-- A run from `c` to `c'` with its history and the order in which the calls take effect. -/
inductive Run (O : Object Req Ans) : Config O T → List (Event T Req Ans) → List (T × Req × Ans) →
    Config O T → Prop where
  | nil (c : Config O T) : Run O c [] [] c
  | invoke {c c' : Config O T} {es order} (t : T) (r : Req) (hidle : c.calls t = .idle)
      (rest : Run O (c.set t (.pending r)) es order c') : Run O c (.invoke t r :: es) order c'
  | decide {c c' : Config O T} {es order} (t : T) (r : Req) (a : Ans) (s : O.State)
      (hpending : c.calls t = .pending r) (hstep : O.step c.state r s a)
      (rest : Run O ({ c with state := s }.set t (.decided a)) es order c') :
      Run O c es ((t, r, a) :: order) c'
  | respond {c c' : Config O T} {es order} (t : T) (a : Ans) (hdecided : c.calls t = .decided a)
      (rest : Run O (c.set t .idle) es order c') : Run O c (.respond t a :: es) order c'

/-- An execution of the sequential object. -/
inductive Sequential (O : Object Req Ans) : O.State → List (T × Req × Ans) → O.State → Prop where
  | nil (s : O.State) : Sequential O s [] s
  | cons {s s' s'' : O.State} {order} (t : T) (r : Req) (a : Ans) (hstep : O.step s r s' a)
      (rest : Sequential O s' order s'') : Sequential O s ((t, r, a) :: order) s''

variable {c c' c'' : Config O T} {es es' : List (Event T Req Ans)}
  {order order' : List (T × Req × Ans)}

/-- **The order of the effects is an execution of the sequential object.** -/
theorem Run.sequential (h : Run O c es order c') : Sequential O c.state order c'.state := by
  induction h with
  | nil c => exact .nil _
  | invoke t r hidle _ ih => exact ih
  | decide t r a s hpending hstep _ ih => exact .cons t r a hstep ih
  | respond t a hdecided _ ih => exact ih

theorem Run.of_eq (h : c = c') : Run O c [] [] c' := h ▸ .nil c

/-- Runs compose. -/
theorem Run.append (h : Run O c es order c') (h' : Run O c' es' order' c'') :
    Run O c (es ++ es') (order ++ order') c'' := by
  induction h with
  | nil c => exact h'
  | invoke t r hidle _ ih => exact .invoke t r hidle (ih h')
  | decide t r a s hpending hstep _ ih => exact .decide t r a s hpending hstep (ih h')
  | respond t a hdecided _ ih => exact .respond t a hdecided (ih h')

end Linear
