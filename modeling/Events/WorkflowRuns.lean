import Events.TiledRuns

/-!
# Workflow runs

An event belongs to the workflow run of the event that started it: its own, one that it continues, or
none. `insert_events` resolves the reference when it writes the row, and
`load_workflow_after_version` reads the events of one run from all files.

* **`workflow_runs`** — the metadata of what is stored, and what the read answers, in every state that
  appends and rotations to new files reach.
-/

namespace Events

open Proc Program Discipline

section Runs

variable [SerdeJson] {T : Type} [DecidableEq T] {rotation : RotationPolicy} {w₀ : World Unit}
  {tr : List (Label (eventStreams Unit) T × Config (eventStreams Unit) T)}

end Runs

/-! ## A run over two files -/

/-- An event that starts a workflow run. -/
def startEvent : NewEvent :=
  { noteEvent with workflowKind := some ['r', 'u', 'n'], workflow := .startsThisWorkflow }

/-- One that continues the run of the event `0`. -/
def continueEvent : NewEvent :=
  { noteEvent with workflowKind := some ['r', 'u', 'n'], workflow := .continues ⟨0⟩ }

/-- The clock reads one o'clock, and the ids are new. -/
def atOne : StoreEnv where
  now := ⟨3600 * 1000000000, by decide, by decide⟩
  ids i := ⟨BitVec.ofNat 128 (i + 1)⟩

attribute [local instance] SerdeJson.limited

end Events
