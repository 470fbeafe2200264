import Events.Lib.Program

/-!
# Transactions on one connection

A database is given by its statements and what each does (`Dialect`). On a connection a statement
takes effect at once, or, inside a transaction, on a copy that `commit` makes durable and
`rollback` throws away. Any operation may fail and then does nothing.

* **`Conn.step`** — the operations of a connection, as the machine `conn`.
* **`faulty`** — the contract under which every operation may fail at will.
* **`wp_begin`**, **`wp_stmt`**, **`wp_commit`**, **`wp_rollback`** — the rules of the operations.
-/

namespace Tx

open Proc Program

/-- A kind of database: its statements, their answers and effects, and the errors of a misplaced
`begin`, `commit` or `rollback`. -/
structure Dialect where
  Db : Type
  Err : Type
  Stmt : Type
  Ans : Stmt → Type
  exec : (s : Stmt) → Db → Except Err (Ans s × Db)
  nestedTransaction : Err
  noTransaction : Err

variable {D : Dialect}

/-- What can be asked of a connection. -/
inductive Op (D : Dialect) where
  | begin
  | commit
  | rollback
  | stmt (s : D.Stmt)

@[reducible] def Op.Resp : Op D → Type
  | .begin => Except D.Err Unit
  | .commit => Except D.Err Unit
  | .rollback => Except D.Err Unit
  | .stmt s => Except D.Err (D.Ans s)

abbrev interface (D : Dialect) : Interface := ⟨Op D, Op.Resp⟩

/-- A connection: what is durable, and what the open transaction sees. -/
structure Conn (D : Dialect) where
  db : D.Db
  txn : Option D.Db := none

namespace Conn

/-- What the statements on the connection see. -/
def view (c : Conn D) : D.Db := c.txn.getD c.db

/-- The effect of a statement: on the copy of the open transaction, or at once. -/
def write (c : Conn D) (d : D.Db) : Conn D :=
  match c.txn with
  | some _ => { c with txn := some d }
  | none => { c with db := d }

/-- An operation; with `some e` it fails with `e`. -/
def step : (o : Op D) → Option D.Err → Conn D → o.Resp × Conn D
  | .begin, none, c =>
    match c.txn with
    | none => (.ok (), { c with txn := some c.db })
    | some _ => (.error D.nestedTransaction, c)
  | .commit, none, c =>
    match c.txn with
    | some d => (.ok (), ⟨d, none⟩)
    | none => (.error D.noTransaction, c)
  | .rollback, none, c =>
    match c.txn with
    | some _ => (.ok (), { c with txn := none })
    | none => (.error D.noTransaction, c)
  | .stmt s, none, c =>
    match D.exec s c.view with
    | .ok (a, d) => (.ok a, c.write d)
    | .error e => (.error e, c)
  | .begin, some e, c => (.error e, c)
  | .commit, some e, c => (.error e, c)
  | .rollback, some e, c => (.error e, c)
  | .stmt _, some e, c => (.error e, c)

end Conn

/-- One connection as a machine; the environment decides which operations fail. -/
abbrev conn (D : Dialect) : Machine (interface D) := ⟨Conn D, Option D.Err, Conn.step⟩

/-- Any operation may fail with an error in `fault`. -/
def faulty (fault : D.Err → Prop) : Contract (conn D) where
  assume _ e _ := ∀ err, e = some err → fault err
  guarantee _ _ _ := True

/-! ## The rules of the operations -/

section Rules

variable {fault : D.Err → Prop} {ε α : Type} {Q : Except ε α → Conn D → Prop} {d d' : D.Db}

theorem wp_begin {k : Except D.Err Unit → Program (interface D) ε α}
    (hok : wp (faulty fault) (k (.ok ())) Q ⟨d, some d⟩)
    (herr : ∀ e, fault e → wp (faulty fault) (k (.error e)) Q ⟨d, none⟩) :
    wp (faulty fault) (.call .begin k) Q ⟨d, none⟩ := by
  intro e he
  cases e with
  | none => exact ⟨trivial, hok⟩
  | some e => exact ⟨trivial, herr e (he e rfl)⟩

theorem wp_stmt {c : Conn D} {s : D.Stmt} {k : Except D.Err (D.Ans s) → Program (interface D) ε α}
    (hok : ∀ a d, D.exec s c.view = .ok (a, d) → wp (faulty fault) (k (.ok a)) Q (c.write d))
    (herr : ∀ e, D.exec s c.view = .error e ∨ fault e → wp (faulty fault) (k (.error e)) Q c) :
    wp (faulty fault) (.call (.stmt s) k) Q c := by
  intro e he
  refine ⟨trivial, ?_⟩
  cases e with
  | none =>
    simp only [conn, Conn.step]
    split
    · exact hok _ _ ‹_›
    · exact herr _ (.inl ‹_›)
  | some e => exact herr e (.inr (he e rfl))

theorem wp_commit {k : Except D.Err Unit → Program (interface D) ε α}
    (hok : wp (faulty fault) (k (.ok ())) Q ⟨d', none⟩)
    (herr : ∀ e, fault e → wp (faulty fault) (k (.error e)) Q ⟨d, some d'⟩) :
    wp (faulty fault) (.call .commit k) Q ⟨d, some d'⟩ := by
  intro e he
  cases e with
  | none => exact ⟨trivial, hok⟩
  | some e => exact ⟨trivial, herr e (he e rfl)⟩

theorem wp_rollback {k : Except D.Err Unit → Program (interface D) ε α}
    (h : ∀ r t, wp (faulty fault) (k r) Q ⟨d, t⟩) :
    wp (faulty fault) (.call .rollback k) Q ⟨d, some d'⟩ := by
  intro e _
  cases e with
  | none => exact ⟨trivial, h _ _⟩
  | some e => exact ⟨trivial, h _ _⟩

end Rules

end Tx
