import Mathlib.Algebra.Order.Ring.Nat
import Mathlib.Tactic.Common

/-!
# Errors

The errors a call can return (`EsError`, `src/error.rs`), those of the database engine
(`DbError`), and the three ways in which the code of a call can end without a value (`Abort`).

Texts that are stored or compared (event types, file names, actor ids) are lists of characters;
messages are strings.
-/

namespace Events

/-- A stored text or a file name. -/
abbrev Text := List Char

/-- `str::len`: the length in bytes of the UTF-8 encoding. -/
def Text.len (t : Text) : Nat := (t.map Char.utf8Size).sum

/-- `turso::Error`, by what the engine reports. -/
inductive DbError where
  /-- "UNIQUE constraint failed: events.version" and its like, by the column it names. -/
  | uniqueConstraint (column : String)
  | noSuchTable (name : String)
  | tableExists (name : String)
  | nestedTransaction
  | noTransaction
  | databaseLocked
  /-- Any other failure of the storage, with its text. -/
  | storage (message : String)
  deriving DecidableEq

/-- `EsError`. -/
inductive EsError where
  | db (e : DbError)
  | incorrectEventVersion (expected actual : Int)
  | payloadTooLarge (size max : Nat)
  | serde (message : String)
  | time (message : String)
  | io (message : String)
  | migration (message : String)
  | invalidPartition (message : String)
  | rotationOrdinalExhausted (max : Nat)
  | invalidPath (message : String)
  | invalidVersion (message : String)
  | invalidWorkflowMetadata (message : String)
  | invalidSafeName (field : String) (value : Text)
  | invalidReadLimit (limit max : Nat)
  | cursor (message : String)
  deriving DecidableEq

/-- How the code of a call ends without a value: it returns an error, it panics, or a loop of it is
still running when the number of iterations considered is used up. -/
inductive Abort where
  | es (e : EsError)
  | panic
  | diverge
  deriving DecidableEq

end Events
