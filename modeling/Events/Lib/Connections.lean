import Mathlib.Logic.Function.Basic
import Events.Lib.Transaction

/-!
# Several connections to one database

Calls run on any number of connections to one database, each a program of operations, and the
operations on different connections interleave. One connection at a time is inside a transaction; a
call may be dropped between any two of its operations, and its connection is closed or stays open.

* **`Shared`** — the database, the open transactions, the running calls, and the answers so far.
* **`Atomic`** — a program that is one statement, or one transaction from its `begin` to its end.
* **`Serial`** — the answers are those of the calls run alone, one after the other.
* **`Tidy`** — the invariant while no call is dropped inside its transaction: a transaction is open
  only where its call runs. `Tidy.operate` — the step lemma.
* **`Abandoned`** — the invariant after a call was dropped inside its transaction: nobody ends it.
-/

namespace Tx

open Proc Program

variable {D : Dialect}

/-! ## The system -/

/-- The calls that can be made on a connection, each with its program. -/
structure Calls (D : Dialect) where
  Call : Type
  Err : Type
  Ans : Call → Type
  program : (u : Call) → Program (interface D) Err (Ans u)

variable {U : Calls D}

/-- A call with what is left of its program. -/
abbrev Running (U : Calls D) := Σ u : U.Call, Program (interface D) U.Err (U.Ans u)

/-- A call with its answer. -/
abbrev Answer (U : Calls D) := Σ u : U.Call, Except U.Err (U.Ans u)

/-- The operation that a call is to perform next. -/
def Running.op : Running U → Option (Op D)
  | ⟨_, .call o _⟩ => some o
  | ⟨_, .done _⟩ => none

/-- A database and its connections, by number. -/
structure Shared (U : Calls D) where
  db : D.Db
  /-- What the open transaction of a connection sees. -/
  txns : Nat → Option D.Db
  running : Nat → Option (Running U)
  /-- The answers, in the order in which the calls ended. -/
  log : List (Answer U)

namespace Shared

/-- A database on which nobody works. -/
def new (d : D.Db) : Shared U := ⟨d, fun _ => none, fun _ => none, []⟩

/-- A connection as its call sees it. -/
def conn (s : Shared U) (c : Nat) : Conn D := ⟨s.db, s.txns c⟩

/-- The operation that the call on `c` is to perform next. -/
def pending (s : Shared U) (c : Nat) : Option (Op D) := (s.running c).bind Running.op

/-- A call starts on `c`. -/
def start (c : Nat) (u : U.Call) (s : Shared U) : Option (Shared U) :=
  if (s.running c).isNone then
    some { s with running := Function.update s.running c (some ⟨u, U.program u⟩) }
  else none

/-- An operation has left the connection `c` at `k`: its call goes on, or it has ended. -/
def advance (c : Nat) (k : Conn D) : Running U → Shared U → Shared U
  | ⟨u, .done r⟩, s =>
    { db := k.db, txns := Function.update s.txns c k.txn, running := Function.update s.running c none,
      log := s.log ++ [⟨u, r⟩] }
  | p, s =>
    { s with
      db := k.db, txns := Function.update s.txns c k.txn,
      running := Function.update s.running c (some p) }

/-- The call on `c` performs its next operation, which fails with the error `fault` if there is one. -/
def operate (c : Nat) (fault : Option D.Err) (s : Shared U) : Option (Shared U) :=
  match s.running c with
  | some ⟨u, .call o k⟩ =>
    let (x, conn) := Conn.step o fault (s.conn c)
    some (s.advance c conn ⟨u, k x⟩)
  | _ => none

/-- The connections that are not `kept` are closed, which throws their transactions away, and the calls
on those that are not `used` are dropped. -/
def release (kept used : Nat → Bool) (s : Shared U) : Shared U :=
  { s with
    txns := fun c => if kept c then s.txns c else none
    running := fun c => if used c then s.running c else none }

end Shared

/-- What the database promises of an operation on `c`: it fails with errors in `fault` only, and it
begins a transaction, or writes outside one, only while no other connection is inside one. -/
structure Shared.Serves (fault : D.Err → Prop) (s : Shared U) (c : Nat) (f : Option D.Err) : Prop where
  fails : ∀ e, f = some e → fault e
  alone : ∀ o, s.pending c = some o → f = none →
    o = .begin ∨ o ≠ .commit ∧ (Conn.step o none (s.conn c)).2.db ≠ s.db →
    ∀ c', c' ≠ c → s.txns c' = none

/-- The calls run alone, one after the other, from the database `d`. -/
inductive Serial (fault : D.Err → Prop) (d : D.Db) : List (Answer U) → D.Db → Prop where
  | nil : Serial fault d [] d
  | snoc {answers : List (Answer U)} {d₁ d₂ : D.Db} {u : U.Call} {r : Except U.Err (U.Ans u)}
      (before : Serial fault d answers d₁)
      (last : Runs (faulty fault) (U.program u) ⟨d₁, none⟩ r ⟨d₂, none⟩) :
      Serial fault d (answers ++ [⟨u, r⟩]) d₂

/-! ## Programs that are one transaction -/

/-- The contract of a program inside its transaction: it does not begin another one, `rollback` does not
fail, and the operation that ends the transaction is the last one. -/
def inside (fault : D.Err → Prop) : Contract (Tx.conn D) where
  assume o e _ := ∀ err, e = some err → fault err ∧ o ≠ .rollback
  guarantee o c _ := c.txn ≠ none ∧ o ≠ .begin

/-- A program that is one statement, or one transaction from its `begin` to its end. -/
inductive Atomic (fault : D.Err → Prop) {ε α : Type} : Program (interface D) ε α → Prop where
  | statement {s : D.Stmt} {k : Except D.Err (D.Ans s) → Program (interface D) ε α}
      (h : ∀ x, ∃ r, k x = .done r) : Atomic fault (.call (.stmt s) k)
  | transaction {k : Except D.Err Unit → Program (interface D) ε α}
      (hok : ∀ d, wp (inside fault) (k (.ok ())) (fun _ c => c.txn = none) ⟨d, some d⟩)
      (herr : ∀ e, ∃ x, k (.error e) = .done (.error x)) : Atomic fault (.call .begin k)

section Inside

variable {fault : D.Err → Prop} {ε α : Type} {Q : Except ε α → Conn D → Prop} {d t : D.Db}

theorem wp_inside_stmt {s : D.Stmt} {k : Except D.Err (D.Ans s) → Program (interface D) ε α}
    (h : ∀ x t', wp (inside fault) (k x) Q ⟨d, some t'⟩) :
    wp (inside fault) (.call (.stmt s) k) Q ⟨d, some t⟩ := by
  intro e _
  refine ⟨⟨by simp, by simp⟩, ?_⟩
  cases e with
  | none =>
    simp only [Tx.conn, Conn.step]
    split
    · exact h _ _
    · exact h _ _
  | some e => exact h _ _

theorem wp_inside_commit {k : Except D.Err Unit → Program (interface D) ε α}
    (hok : wp (inside fault) (k (.ok ())) Q ⟨t, none⟩)
    (herr : ∀ e, wp (inside fault) (k (.error e)) Q ⟨d, some t⟩) :
    wp (inside fault) (.call .commit k) Q ⟨d, some t⟩ := by
  intro e _
  refine ⟨⟨by simp, by simp⟩, ?_⟩
  cases e with
  | none => exact hok
  | some e => exact herr e

theorem wp_inside_rollback {k : Except D.Err Unit → Program (interface D) ε α}
    (h : wp (inside fault) (k (.ok ())) Q ⟨d, none⟩) :
    wp (inside fault) (.call .rollback k) Q ⟨d, some t⟩ := by
  intro e he
  refine ⟨⟨by simp, by simp⟩, ?_⟩
  cases e with
  | none => exact h
  | some e => exact absurd rfl (he e rfl).2

end Inside

/-! ## While no transaction is abandoned -/

/-- What is left of a call that has begun its transaction on `d`, and sees `t`. -/
structure Rest (fault : D.Err → Prop) (u : U.Call) (p : Program (interface D) U.Err (U.Ans u))
    (d t : D.Db) : Prop where
  ends : wp (inside fault) p (fun _ k => k.txn = none) ⟨d, some t⟩
  alone : ∀ r k, Runs (faulty fault) p ⟨d, some t⟩ r k →
    Runs (faulty fault) (U.program u) ⟨d, none⟩ r k

/-- A transaction is open only where its call runs, on one connection, and the answers so far are those
of the calls run alone. -/
structure Tidy (fault : D.Err → Prop) (d : D.Db) (s : Shared U) : Prop where
  opened : ∀ c t, s.txns c = some t →
    ∃ u p, s.running c = some ⟨u, p⟩ ∧ Rest fault u p s.db t
  waiting : ∀ c u p, s.txns c = none → s.running c = some ⟨u, p⟩ → p = U.program u
  one : ∀ c c', s.txns c ≠ none → s.txns c' ≠ none → c = c'
  serial : Serial fault d s.log s.db

section Tidy

variable {fault : D.Err → Prop} {d d' t : D.Db} {s s' : Shared U} {c : Nat} {u : U.Call}
  {f : Option D.Err}

theorem tidy_new : Tidy fault d (.new d : Shared U) where
  opened := fun _ _ h => by cases h
  waiting := fun _ _ _ _ h => by cases h
  one := fun _ _ h => absurd rfl h
  serial := .nil

/-- Only `commit` changes what is durable from inside a transaction. -/
theorem Conn.step_inside {o : Op D} {t' : D.Db}
    (h : (Conn.step o f ⟨d, some t⟩).2.txn = some t') : (Conn.step o f ⟨d, some t⟩).2.db = d := by
  cases f with
  | some e => cases o <;> rfl
  | none =>
    cases o with
    | begin | rollback => rfl
    | commit => cases h
    | stmt s =>
      simp only [Conn.step] at h ⊢
      split <;> rfl

/-- A statement neither begins nor ends a transaction, and changes what is durable outside one only. -/
theorem Conn.step_stmt (st : D.Stmt) (k : Conn D) :
    ∃ d' txn, (Conn.step (.stmt st) f k).2 = ⟨d', txn⟩ ∧ (txn = none ↔ k.txn = none) ∧
      (k.txn ≠ none ∨ f ≠ none → d' = k.db) := by
  cases f with
  | some e => exact ⟨k.db, k.txn, rfl, Iff.rfl, fun _ => rfl⟩
  | none =>
    simp only [Conn.step]
    split
    · obtain ⟨db, txn⟩ := k
      cases txn with
      | none => exact ⟨_, none, rfl, Iff.rfl, by simp⟩
      | some t => exact ⟨db, some _, rfl, by simp, fun _ => rfl⟩
    · exact ⟨k.db, k.txn, rfl, Iff.rfl, fun _ => rfl⟩

/-- **One operation inside a transaction**: the transaction stays open and the call goes on, or both
have ended. -/
theorem Rest.step {o : Op D} {k : o.Resp → Program (interface D) U.Err (U.Ans u)}
    (h : Rest fault u (.call o k) d t) (hf : ∀ e, f = some e → fault e ∧ o ≠ .rollback) :
    (∃ t' o' k', (Conn.step o f ⟨d, some t⟩).2 = ⟨d, some t'⟩ ∧
      k (Conn.step o f ⟨d, some t⟩).1 = .call o' k' ∧ Rest fault u (.call o' k') d t') ∨
    ∃ d' r, (Conn.step o f ⟨d, some t⟩).2 = ⟨d', none⟩ ∧
      k (Conn.step o f ⟨d, some t⟩).1 = .done r ∧
      Runs (faulty fault) (U.program u) ⟨d, none⟩ r ⟨d', none⟩ := by
  have hends := (h.ends f hf).2
  have halone : ∀ r m, Runs (faulty fault) (k (Conn.step o f ⟨d, some t⟩).1)
      (Conn.step o f ⟨d, some t⟩).2 r m → Runs (faulty fault) (U.program u) ⟨d, none⟩ r m :=
    fun r m hr => h.alone r m (.call f (fun e he => (hf e he).1) hr)
  have hdb := @Conn.step_inside D d t f o
  revert hends halone hdb
  show wp (inside fault) (k (Conn.step o f ⟨d, some t⟩).1) _ (Conn.step o f ⟨d, some t⟩).2 → _
  generalize Conn.step o f ⟨d, some t⟩ = q
  obtain ⟨x, ⟨db, txn⟩⟩ := q
  intro hends halone hdb
  cases hk : k x with
  | done r =>
    rw [hk] at hends halone
    obtain rfl : txn = none := hends
    exact .inr ⟨db, r, rfl, rfl, halone _ _ (.done _ _)⟩
  | call o' k' =>
    rw [hk] at hends halone
    obtain ⟨t', rfl⟩ := Option.ne_none_iff_exists'.1 (hends none (fun e he => by cases he)).1.1
    obtain rfl : db = d := hdb rfl
    exact .inl ⟨t', o', k', rfl, rfl, hends, halone⟩

theorem Shared.operate_inv (h : s.operate c f = some s') :
    ∃ u o k, s.running c = some ⟨u, .call o k⟩ ∧
      s' = s.advance c (Conn.step o f (s.conn c)).2 ⟨u, k (Conn.step o f (s.conn c)).1⟩ := by
  unfold Shared.operate at h
  split at h
  · rename_i u o k hrun
    exact ⟨u, o, k, hrun, (Option.some.inj h).symm⟩
  · cases h

/-- An operation concerns the call on its own connection only. -/
theorem Shared.running_operate {c' : Nat} (h : s.operate c f = some s') (hc : c' ≠ c) :
    s'.running c' = s.running c' := by
  obtain ⟨u, o, k, -, rfl⟩ := Shared.operate_inv h
  generalize k (Conn.step o f (s.conn c)).1 = p
  cases p with
  | done r => exact Function.update_of_ne hc _ _
  | call o k => exact Function.update_of_ne hc _ _

theorem Shared.running_start {c' : Nat} (h : s.start c u = some s') (hc : c' ≠ c) :
    s'.running c' = s.running c' := by
  unfold Shared.start at h
  split at h
  · cases h
    exact Function.update_of_ne hc _ _
  · cases h

theorem Shared.start_same (h : s.start c u = some s') : s'.db = s.db ∧ s'.log = s.log := by
  unfold Shared.start at h
  split at h
  · cases h
    exact ⟨rfl, rfl⟩
  · cases h

/-- A call goes on inside its transaction. -/
theorem Tidy.entered {o : Op D} {k : o.Resp → Program (interface D) U.Err (U.Ans u)}
    (h : Tidy fault d s) (hothers : ∀ c', c' ≠ c → s.txns c' = none)
    (hrest : Rest fault u (.call o k) s.db t) :
    Tidy fault d (s.advance c ⟨s.db, some t⟩ ⟨u, .call o k⟩) where
  opened := by
    intro c' t' ht'
    by_cases hc : c' = c
    · subst hc
      obtain rfl : t = t' := by simpa [Shared.advance] using ht'
      exact ⟨u, .call o k, by simp [Shared.advance], hrest⟩
    · simp [Shared.advance, Function.update_of_ne hc, hothers c' hc] at ht'
  waiting := by
    intro c' u' p hnone hrun
    by_cases hc : c' = c
    · subst hc
      simp [Shared.advance] at hnone
    · simp only [Shared.advance, Function.update_of_ne hc] at hnone hrun
      exact h.waiting c' u' p hnone hrun
  one := by
    have hc : ∀ c', Function.update s.txns c (some t) c' ≠ none → c' = c := by
      intro c' hc'
      by_contra hne
      rw [Function.update_of_ne hne] at hc'
      exact hc' (hothers c' hne)
    exact fun c₁ c₂ h₁ h₂ => (hc c₁ h₁).trans (hc c₂ h₂).symm
  serial := h.serial

/-- A call ends, outside any transaction. -/
theorem Tidy.answered {r : Except U.Err (U.Ans u)} (h : Tidy fault d s)
    (hothers : d' = s.db ∨ ∀ c', c' ≠ c → s.txns c' = none)
    (hruns : Runs (faulty fault) (U.program u) ⟨s.db, none⟩ r ⟨d', none⟩) :
    Tidy fault d (s.advance c ⟨d', none⟩ ⟨u, .done r⟩) where
  opened := by
    intro c' t' ht'
    by_cases hc : c' = c
    · subst hc
      simp [Shared.advance] at ht'
    · simp only [Shared.advance, Function.update_of_ne hc] at ht' ⊢
      rcases hothers with rfl | hothers
      · exact h.opened c' t' ht'
      · simp [hothers c' hc] at ht'
  waiting := by
    intro c' u' p hnone hrun
    by_cases hc : c' = c
    · subst hc
      simp [Shared.advance] at hrun
    · simp only [Shared.advance, Function.update_of_ne hc] at hnone hrun
      exact h.waiting c' u' p hnone hrun
  one := by
    have hmono : ∀ c', Function.update s.txns c none c' ≠ none → s.txns c' ≠ none := by
      intro c' hc'
      by_cases hc : c' = c
      · subst hc
        simp at hc'
      · rwa [Function.update_of_ne hc] at hc'
    exact fun c₁ c₂ h₁ h₂ => h.one c₁ c₂ (hmono c₁ h₁) (hmono c₂ h₂)
  serial := h.serial.snoc hruns

/-- **Every operation keeps the connections tidy**, where `rollback` does not fail. -/
theorem Tidy.operate (hatomic : ∀ u, Atomic fault (U.program u)) (h : Tidy fault d s)
    (hserves : s.Serves fault c f) (hrollback : s.pending c = some .rollback → f = none)
    (hstep : s.operate c f = some s') : Tidy fault d s' := by
  obtain ⟨u, o, k, hrun, rfl⟩ := Shared.operate_inv hstep
  have hpending : s.pending c = some o := by simp [Shared.pending, hrun, Running.op]
  cases htxn : s.txns c with
  | some t =>
    have hothers : ∀ c', c' ≠ c → s.txns c' = none := by
      intro c' hc'
      by_contra hne
      exact hc' (h.one c' c hne (by simp [htxn]))
    obtain ⟨u', p, hrun', hrest⟩ := h.opened c t htxn
    obtain ⟨rfl, rfl⟩ : u = u' ∧ HEq (Program.call o k) p := by simpa [hrun] using hrun'
    have hconn : s.conn c = ⟨s.db, some t⟩ := by rw [Shared.conn, htxn]
    have hf : ∀ e, f = some e → fault e ∧ o ≠ .rollback := by
      intro e he
      refine ⟨hserves.fails e he, ?_⟩
      rintro rfl
      rw [hrollback hpending] at he
      cases he
    rw [hconn]
    rcases hrest.step hf with ⟨t', o', k', hq, hk, hrest'⟩ | ⟨d', r, hq, hk, hruns⟩
    · rw [hk, hq]
      exact h.entered hothers hrest'
    · rw [hk, hq]
      exact h.answered (.inr hothers) hruns
  | none =>
    have hconn : s.conn c = ⟨s.db, none⟩ := by rw [Shared.conn, htxn]
    have halone := hserves.alone o hpending
    have hprogram := h.waiting c u _ htxn hrun
    rw [hconn] at halone ⊢
    have hu := hatomic u
    rw [← hprogram] at hu
    cases hu with
    | @statement st k hdone =>
      obtain ⟨r, hr⟩ := hdone (Conn.step (.stmt st) f ⟨s.db, none⟩).1
      obtain ⟨d', txn, hd', htxn', hsame⟩ := Conn.step_stmt (f := f) st ⟨s.db, none⟩
      obtain rfl : txn = none := htxn'.2 rfl
      have hruns : Runs (faulty fault) (U.program u) ⟨s.db, none⟩ r ⟨d', none⟩ := by
        rw [← hprogram]
        refine .call f hserves.fails ?_
        show Runs (faulty fault) (k (Conn.step (.stmt st) f ⟨s.db, none⟩).1)
          (Conn.step (.stmt st) f ⟨s.db, none⟩).2 _ _
        rw [hr, hd']
        exact .done _ _
      rw [hr, hd']
      refine h.answered ?_ hruns
      by_cases hf : f = none
      · subst hf
        rw [hd'] at halone
        exact or_iff_not_imp_left.2 fun hne => halone rfl (.inr ⟨by simp, hne⟩)
      · exact .inl (hsame (.inr hf))
    | @transaction k hok herr =>
      cases f with
      | none =>
        have hothers := halone rfl (.inl rfl)
        show Tidy fault d (s.advance c ⟨s.db, some s.db⟩ ⟨u, k (.ok ())⟩)
        have hends := hok s.db
        have hruns : ∀ r m, Runs (faulty fault) (k (.ok ())) ⟨s.db, some s.db⟩ r m →
            Runs (faulty fault) (U.program u) ⟨s.db, none⟩ r m := by
          intro r m hr
          rw [← hprogram]
          exact .call none (fun e he => by cases he) hr
        revert hends hruns
        generalize k (.ok ()) = p
        intro hends hruns
        cases p with
        | done r => cases hends
        | call o k => exact h.entered hothers ⟨hends, hruns⟩
      | some e =>
        -- the transaction has not begun
        obtain ⟨x, hx⟩ := herr e
        show Tidy fault d (s.advance c ⟨s.db, none⟩ ⟨u, k (.error e)⟩)
        have hruns : Runs (faulty fault) (U.program u) ⟨s.db, none⟩ (.error x) ⟨s.db, none⟩ := by
          rw [← hprogram]
          refine .call (some e) hserves.fails ?_
          show Runs (faulty fault) (k (.error e)) ⟨s.db, none⟩ _ _
          rw [hx]
          exact .done _ _
        rw [hx]
        exact h.answered (.inl rfl) hruns

theorem Tidy.start (h : Tidy fault d s) (hstart : s.start c u = some s') : Tidy fault d s' := by
  unfold Shared.start at hstart
  split at hstart
  · rename_i hidle
    cases hstart
    refine ⟨fun c' t' ht' => ?_, fun c' u' p hnone hrun => ?_, h.one, h.serial⟩
    · obtain ⟨u', p, hrun, hrest⟩ := h.opened c' t' ht'
      have hc : c' ≠ c := by
        rintro rfl
        simp [hrun] at hidle
      exact ⟨u', p, (Function.update_of_ne hc _ _).trans hrun, hrest⟩
    · replace hrun : Function.update s.running c (some ⟨u, U.program u⟩) c' = some ⟨u', p⟩ := hrun
      by_cases hc : c' = c
      · subst hc
        rw [Function.update_self] at hrun
        cases hrun
        rfl
      · rw [Function.update_of_ne hc] at hrun
        exact h.waiting c' u' p hnone hrun
  · cases hstart

/-- Calls are dropped outside their transactions only. -/
theorem Tidy.release {kept used : Nat → Bool} (h : Tidy fault d s)
    (hopen : ∀ c, s.txns c ≠ none → kept c = true ∧ used c = true) :
    Tidy fault d (s.release kept used) where
  opened := by
    intro c t ht
    obtain ⟨-, ht⟩ := Option.ite_none_right_eq_some.1 ht
    obtain ⟨u, p, hrun, hrest⟩ := h.opened c t ht
    exact ⟨u, p, by simp [Shared.release, hopen c (by simp [ht]), hrun], hrest⟩
  waiting := by
    intro c u p hnone hrun
    obtain ⟨-, hrun⟩ := Option.ite_none_right_eq_some.1 hrun
    by_cases htxn : s.txns c = none
    · exact h.waiting c u p htxn hrun
    · simp [Shared.release, hopen c htxn, htxn] at hnone
  one := by
    have hmono : ∀ c, (s.release kept used).txns c ≠ none → s.txns c ≠ none := by
      intro c hc hnone
      simp [Shared.release, hnone] at hc
    exact fun c c' hc hc' => h.one c c' (hmono c hc) (hmono c' hc')
  serial := h.serial

/-- Where no call runs, no transaction is open. -/
theorem Tidy.idle (h : Tidy fault d s) (hrun : s.running c = none) : s.txns c = none := by
  by_contra hne
  obtain ⟨t, ht⟩ := Option.ne_none_iff_exists'.1 hne
  obtain ⟨u, p, hrun', -⟩ := h.opened c t ht
  rw [hrun] at hrun'
  cases hrun'

/-- A transaction is begun on a connection that is outside one. -/
theorem Tidy.begins (h : Tidy fault d s) (hbegin : s.pending c = some .begin) : s.txns c = none := by
  by_contra hne
  obtain ⟨t, ht⟩ := Option.ne_none_iff_exists'.1 hne
  obtain ⟨u, p, hrun, hrest⟩ := h.opened c t ht
  rw [Shared.pending, hrun] at hbegin
  cases p with
  | done r => cases hbegin
  | call o k =>
    obtain rfl : o = .begin := Option.some.inj hbegin
    exact (hrest.ends none fun e he => by cases he).1.2 rfl

end Tidy

/-! ## After a transaction was abandoned -/

/-- A transaction is open on `c`, and the call that began it is gone: on every connection no call runs,
or one that has not performed an operation yet. -/
structure Abandoned (c : Nat) (s : Shared U) : Prop where
  opened : s.txns c ≠ none
  others : ∀ c', c' ≠ c → s.txns c' = none
  waiting : ∀ c' u p, s.running c' = some ⟨u, p⟩ → p = U.program u

/-- The answer of a transaction that did not begin, or of a single statement. -/
def Answer.Unbegun (a : Answer U) : Prop :=
  (∃ x, a.2 = .error x) ∨ ∃ s k, U.program a.1 = .call (Op.stmt s) k

section Abandoned

variable {fault : D.Err → Prop} {s s' : Shared U} {c c' : Nat} {u : U.Call} {f : Option D.Err}

/-- A call that drops out inside its transaction abandons it. -/
theorem Tidy.abandon {kept used : Nat → Bool} {d : D.Db} (h : Tidy fault d s)
    (hopen : s.txns c ≠ none) (hkept : kept c = true) (hused : used c = false) :
    Abandoned c (s.release kept used) where
  opened := by simpa [Shared.release, hkept] using hopen
  others := by
    intro c' hc'
    have hnone : s.txns c' = none := by
      by_contra hne
      exact hc' (h.one c' c hne hopen)
    simp [Shared.release, hnone]
  waiting := by
    intro c' u p hrun
    obtain ⟨hc', hrun⟩ := Option.ite_none_right_eq_some.1 hrun
    refine h.waiting c' u p ?_ hrun
    by_contra hne
    obtain rfl := h.one c' c hne hopen
    rw [hused] at hc'
    cases hc'

theorem Abandoned.start (h : Abandoned c s) (hstart : s.start c' u = some s') : Abandoned c s' := by
  unfold Shared.start at hstart
  split at hstart
  · cases hstart
    refine ⟨h.opened, h.others, fun c₁ u' p hrun => ?_⟩
    replace hrun : Function.update s.running c' (some ⟨u, U.program u⟩) c₁ = some ⟨u', p⟩ := hrun
    by_cases hc : c₁ = c'
    · subst hc
      rw [Function.update_self] at hrun
      cases hrun
      rfl
    · rw [Function.update_of_ne hc] at hrun
      exact h.waiting c₁ u' p hrun
  · cases hstart

theorem Abandoned.release {kept used : Nat → Bool} (h : Abandoned c s) (hkept : kept c = true) :
    Abandoned c (s.release kept used) where
  opened := by simpa [Shared.release, hkept] using h.opened
  others := fun c' hc' => by simp [Shared.release, h.others c' hc']
  waiting := fun c' u p hrun => h.waiting c' u p (Option.ite_none_right_eq_some.1 hrun).2

/-- A call ends, and `c` is still inside its transaction. -/
theorem Abandoned.answered {t : Option D.Db} {r : Except U.Err (U.Ans u)} (h : Abandoned c s)
    (ht : t = none ↔ s.txns c' = none) :
    Abandoned c (s.advance c' ⟨s.db, t⟩ ⟨u, .done r⟩) where
  opened := by
    show Function.update s.txns c' t c ≠ none
    by_cases hc : c = c'
    · subst hc
      rw [Function.update_self]
      exact fun hnone => h.opened (ht.1 hnone)
    · rw [Function.update_of_ne hc]
      exact h.opened
  others := by
    intro c₁ hc₁
    show Function.update s.txns c' t c₁ = none
    by_cases hc : c₁ = c'
    · subst hc
      rw [Function.update_self]
      exact ht.2 (h.others c₁ hc₁)
    · rw [Function.update_of_ne hc]
      exact h.others c₁ hc₁
  waiting := by
    intro c₁ u' p hrun
    replace hrun : Function.update s.running c' none c₁ = some ⟨u', p⟩ := hrun
    by_cases hc : c₁ = c'
    · subst hc
      rw [Function.update_self] at hrun
      cases hrun
    · rw [Function.update_of_ne hc] at hrun
      exact h.waiting c₁ u' p hrun

/-- **Nothing is committed any more**: an operation ends its call and changes nothing that is durable. -/
theorem Abandoned.operate (hatomic : ∀ u, Atomic fault (U.program u)) (h : Abandoned c s)
    (hserves : s.Serves fault c' f) (hstep : s.operate c' f = some s') :
    Abandoned c s' ∧ s'.db = s.db ∧ ∃ a, a.Unbegun ∧ s'.log = s.log ++ [a] := by
  obtain ⟨u, o, k, hrun, rfl⟩ := Shared.operate_inv hstep
  have hpending : s.pending c' = some o := by simp [Shared.pending, hrun, Running.op]
  have hprogram := h.waiting c' u _ hrun
  have halone := hserves.alone o hpending
  have hu := hatomic u
  rw [← hprogram] at hu
  cases hu with
  | @statement st k hdone =>
    obtain ⟨r, hr⟩ := hdone (Conn.step (.stmt st) f (s.conn c')).1
    obtain ⟨d', txn, hd', htxn, hsame⟩ := Conn.step_stmt (f := f) st (s.conn c')
    have hdb : d' = s.db := by
      by_cases hf : f = none
      · by_cases hopen : s.txns c' = none
        · -- the open transaction keeps everybody else from writing
          subst hf
          rw [hd'] at halone
          by_contra hne
          refine h.opened (halone rfl (.inr ⟨by simp, hne⟩) c ?_)
          rintro rfl
          exact h.opened hopen
        · exact hsame (.inl hopen)
      · exact hsame (.inr hf)
    subst hdb
    rw [hr, hd']
    exact ⟨h.answered htxn, rfl, _, .inr ⟨st, k, hprogram.symm⟩, rfl⟩
  | @transaction k hok herr =>
    have hfails : ∃ e, Conn.step .begin f (s.conn c') = (.error e, s.conn c') := by
      cases f with
      | some e => exact ⟨e, rfl⟩
      | none =>
        -- only `c` can be without another open transaction
        have hc : c' = c := by
          by_contra hc
          exact h.opened (halone rfl (.inl rfl) c (Ne.symm hc))
        subst hc
        obtain ⟨t, ht⟩ := Option.ne_none_iff_exists'.1 h.opened
        exact ⟨D.nestedTransaction, by simp [Shared.conn, ht, Conn.step]⟩
    obtain ⟨e, he⟩ := hfails
    obtain ⟨x, hx⟩ := herr e
    rw [he]
    show Abandoned c (s.advance c' ⟨s.db, s.txns c'⟩ ⟨u, k (.error e)⟩) ∧ _
    rw [hx]
    exact ⟨h.answered Iff.rfl, rfl, _, .inl ⟨x, rfl⟩, rfl⟩

end Abandoned

end Tx
