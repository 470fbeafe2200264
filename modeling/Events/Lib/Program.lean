import Mathlib.Logic.Basic
import Mathlib.Tactic.Common

/-!
# Programs as trees of operations

A program over an *interface* (a type of operations and the type of the answer to each) is a
tree: it has finished with a result, or it performs one operation and goes on with the answer.
The tree keeps every point between two operations apart, so the same program text can be run to
completion, stopped at any such point, or interleaved with other programs.

* **`Machine`** — a state, and what each operation answers and does to it; whatever the state does
  not decide (a failure, a clock reading, an order of enumeration) is a choice of the environment.
* **`Contract`** — what the choices of the environment are assumed to satisfy (`assume`), and what
  every single operation is asked to do to the state (`guarantee`).
* **`Program.wp`** — the weakest precondition: under the assumption, every operation of the program
  respects the guarantee and every result satisfies the postcondition.
* **`Program.Runs`** — the complete runs, which `wp` describes (`Runs.post`, `wp_of_runs`).
* **`Program.eval`** — the run for one stream of choices, for evaluation.
-/

namespace Proc

/-- The operations a program may perform, with the type of the answer to each. -/
structure Interface where
  Op : Type
  Resp : Op → Type

/-- A program: finished with a result, or an operation and what follows each answer to it. -/
inductive Program (I : Interface) (ε α : Type) : Type where
  | done (r : Except ε α)
  | call (o : I.Op) (k : I.Resp o → Program I ε α)

namespace Program

variable {I : Interface} {ε α β γ : Type}

/-- Sequencing: an error ends the program. -/
def bind : Program I ε α → (α → Program I ε β) → Program I ε β
  | .done (.ok a), f => f a
  | .done (.error e), _ => .done (.error e)
  | .call o k, f => .call o fun x => (k x).bind f

instance : Monad (Program I ε) where
  pure a := .done (.ok a)
  bind := bind

instance : MonadExceptOf ε (Program I ε) where
  throw e := .done (.error e)
  tryCatch p h := go p h
where
  go {α : Type} : Program I ε α → (ε → Program I ε α) → Program I ε α
    | .done (.ok a), _ => .done (.ok a)
    | .done (.error e), h => h e
    | .call o k, h => .call o fun x => go (k x) h

/-- The program `p` with its error, if any, handed over as a value. -/
def attempt : Program I ε α → Program I ε (Except ε α)
  | .done r => .done (.ok r)
  | .call o k => .call o fun x => (k x).attempt

@[simp] theorem pure_eq (a : α) : (pure a : Program I ε α) = .done (.ok a) := rfl

@[simp] theorem throw_eq (e : ε) : (throw e : Program I ε α) = .done (.error e) := rfl

@[simp] theorem bind_eq (p : Program I ε α) (f : α → Program I ε β) : p >>= f = p.bind f := rfl

@[simp] theorem done_ok_bind (a : α) (f : α → Program I ε β) : (done (.ok a)).bind f = f a := rfl

@[simp] theorem done_error_bind (e : ε) (f : α → Program I ε β) :
    (done (.error e)).bind f = .done (.error e) := rfl

@[simp] theorem call_bind (o : I.Op) (k : I.Resp o → Program I ε α) (f : α → Program I ε β) :
    (call o k).bind f = .call o fun x => (k x).bind f := rfl

theorem bind_assoc (p : Program I ε α) (f : α → Program I ε β) (g : β → Program I ε γ) :
    (p.bind f).bind g = p.bind fun a => (f a).bind g := by
  induction p with
  | done r => cases r <;> rfl
  | call o k ih =>
    rw [call_bind, call_bind, call_bind]
    congr 1
    exact funext ih

end Program

/-- A state and what each operation answers and does to it under a choice of the environment. -/
structure Machine (I : Interface) where
  State : Type
  Env : Type
  step : (o : I.Op) → Env → State → I.Resp o × State

/-- An assumption on the environment's choices and a guarantee on every operation's effect. -/
structure Contract {I : Interface} (M : Machine I) where
  assume : (o : I.Op) → M.Env → M.State → Prop
  guarantee : I.Op → M.State → M.State → Prop

namespace Program

variable {I : Interface} {ε α β : Type} {M : Machine I} (C : Contract M)

/-! ## The weakest precondition -/

/-- Under the assumption, every operation of the program respects the guarantee and every result
satisfies `Q`. -/
def wp : Program I ε α → (Except ε α → M.State → Prop) → M.State → Prop
  | .done r, Q, s => Q r s
  | .call o k, Q, s => ∀ e, C.assume o e s →
      C.guarantee o s (M.step o e s).2 ∧ wp (k (M.step o e s).1) Q (M.step o e s).2

variable {C} {Q Q' : Except ε α → M.State → Prop} {s : M.State}

@[simp] theorem wp_done (r : Except ε α) : wp C (.done r) Q s ↔ Q r s := Iff.rfl

theorem wp_call (o : I.Op) (k : I.Resp o → Program I ε α) :
    wp C (.call o k) Q s ↔ ∀ e, C.assume o e s →
      C.guarantee o s (M.step o e s).2 ∧ wp C (k (M.step o e s).1) Q (M.step o e s).2 := Iff.rfl

/-- The rule of consequence. -/
theorem wp_mono {p : Program I ε α} (h : wp C p Q s) (hQ : ∀ r s', Q r s' → Q' r s') :
    wp C p Q' s := by
  induction p generalizing s with
  | done r => exact hQ r s h
  | call o k ih => exact fun e he => ⟨(h e he).1, ih _ (h e he).2⟩

/-- Two specifications of one program, the second under a weaker assumption. -/
theorem wp_and {C' : Contract M} {p : Program I ε α} (h : wp C p Q s) (h' : wp C' p Q' s)
    (hassume : ∀ o e s, C.assume o e s → C'.assume o e s) :
    wp C p (fun r s => Q r s ∧ Q' r s) s := by
  induction p generalizing s with
  | done r => exact ⟨h, h'⟩
  | call o k ih =>
    intro e he
    exact ⟨(h e he).1, ih _ (h e he).2 (h' e (hassume o e s he)).2⟩

/-- The rule of sequencing. An error of the first program is an error of the whole. -/
theorem wp_bind (p : Program I ε α) (f : α → Program I ε β) {Q : Except ε β → M.State → Prop} :
    wp C (p.bind f) Q s ↔
      wp C p (fun r s' => match r with
        | .ok a => wp C (f a) Q s'
        | .error e => Q (.error e) s') s := by
  induction p generalizing s with
  | done r => cases r <;> exact Iff.rfl
  | call o k ih =>
    simp only [call_bind, wp_call]
    exact forall_congr' fun e => imp_congr_right fun _ => and_congr_right fun _ => ih _

/-- `attempt` hands the error over as a value. -/
theorem wp_attempt (p : Program I ε α) {Q : Except ε (Except ε α) → M.State → Prop} :
    wp C p.attempt Q s ↔ wp C p (fun r s' => Q (.ok r) s') s := by
  induction p generalizing s with
  | done r => exact Iff.rfl
  | call o k ih =>
    simp only [attempt, wp_call]
    exact forall_congr' fun e => imp_congr_right fun _ => and_congr_right fun _ => ih _

/-- Sequencing with a specification of the first program. -/
theorem wp_bind_of {p : Program I ε α} {f : α → Program I ε β} {R : Except ε α → M.State → Prop}
    {Q : Except ε β → M.State → Prop} (hp : wp C p R s)
    (hok : ∀ a s', R (.ok a) s' → wp C (f a) Q s')
    (herr : ∀ e s', R (.error e) s' → Q (.error e) s') : wp C (p.bind f) Q s := by
  rw [wp_bind]
  refine wp_mono hp fun r s' hR => ?_
  cases r with
  | ok a => exact hok a s' hR
  | error e => exact herr e s' hR

/-! ## What every operation of a program satisfies -/

/-- Every operation the program can perform satisfies `P`. -/
def All (P : I.Op → Prop) : Program I ε α → Prop
  | .done _ => True
  | .call o k => P o ∧ ∀ x, (k x).All P

section All

variable {P P' : I.Op → Prop}

@[simp] theorem all_done (r : Except ε α) : All P (.done r : Program I ε α) := trivial

theorem All.mono {p : Program I ε α} (h : p.All P) (hP : ∀ o, P o → P' o) : p.All P' := by
  induction p with
  | done r => trivial
  | call o k ih => exact ⟨hP o h.1, fun x => ih x (h.2 x)⟩

theorem All.bind {p : Program I ε α} {f : α → Program I ε β} (hp : p.All P)
    (hf : ∀ a, (f a).All P) : (p.bind f).All P := by
  induction p with
  | done r =>
    cases r with
    | ok a => exact hf a
    | error e => trivial
  | call o k ih => exact ⟨hp.1, fun x => ih x (hp.2 x)⟩

/-- **The frame rule**: what every single operation keeps, the program keeps. -/
theorem wp_of_all {p : Program I ε α} {J : M.State → Prop} (hp : p.All P) (hJ : J s)
    (hstep : ∀ o, P o → ∀ e s, C.assume o e s → J s →
      C.guarantee o s (M.step o e s).2 ∧ J (M.step o e s).2) :
    wp C p (fun _ s' => J s') s := by
  induction p generalizing s with
  | done r => exact hJ
  | call o k ih =>
    intro e he
    have h := hstep o hp.1 e s he hJ
    exact ⟨h.1, ih _ (hp.2 _) h.2⟩

/-- A specification under another contract, beside what every single operation keeps. -/
theorem wp_framed {C' : Contract M} {p : Program I ε α} {J : M.State → Prop} (hp : p.All P)
    (hJ : J s) (h : wp C' p Q s)
    (hstep : ∀ o, P o → ∀ e s, C.assume o e s → J s → C'.assume o e s ∧ J (M.step o e s).2 ∧
      (C'.guarantee o s (M.step o e s).2 → C.guarantee o s (M.step o e s).2)) :
    wp C p (fun r s' => Q r s' ∧ J s') s := by
  induction p generalizing s with
  | done r => exact ⟨h, hJ⟩
  | call o k ih =>
    intro e he
    obtain ⟨he', hJ', hG⟩ := hstep o hp.1 e s he hJ
    exact ⟨hG (h e he').1, ih _ (hp.2 _) hJ' (h e he').2⟩

end All

/-! ## What a program yields, whatever the state -/

/-- If every answer satisfies `ok`, every result satisfies `R`. -/
def Yields (ok : (o : I.Op) → I.Resp o → Prop) : Program I ε α → (Except ε α → Prop) → Prop
  | .done r, R => R r
  | .call o k, R => ∀ x, ok o x → (k x).Yields ok R

section Yields

variable {ok : (o : I.Op) → I.Resp o → Prop} {R R' : Except ε α → Prop}

theorem Yields.bind {p : Program I ε α} {f : α → Program I ε β} {R : Except ε α → Prop}
    {R' : Except ε β → Prop} (hp : p.Yields ok R) (hok : ∀ a, R (.ok a) → (f a).Yields ok R')
    (herr : ∀ e, R (.error e) → R' (.error e)) : (p.bind f).Yields ok R' := by
  induction p with
  | done r =>
    cases r with
    | ok a => exact hok a hp
    | error e => exact herr e hp
  | call o k ih => exact fun x hx => ih x (hp x hx)

/-- What a program yields holds of its results in every state. -/
theorem wp_yields {p : Program I ε α} (hw : wp C p Q s) (hp : p.Yields ok R)
    (hok : ∀ o e s, C.assume o e s → ok o (M.step o e s).1) :
    wp C p (fun r s' => Q r s' ∧ R r) s := by
  induction p generalizing s with
  | done r => exact ⟨hw, hp⟩
  | call o k ih =>
    intro e he
    exact ⟨(hw e he).1, ih _ (hw e he).2 (hp _ (hok o e s he))⟩

end Yields

/-! ## Complete runs -/

/-- `p` can run from `s` to its result `r` in state `s'`, every choice of the environment being
one that the contract assumes. -/
inductive Runs (C : Contract M) : Program I ε α → M.State → Except ε α → M.State → Prop where
  | done (r : Except ε α) (s : M.State) : Runs C (.done r) s r s
  | call {o : I.Op} {k : I.Resp o → Program I ε α} {s s' : M.State} {r : Except ε α} (e : M.Env)
      (he : C.assume o e s) (rest : Runs C (k (M.step o e s).1) (M.step o e s).2 r s') :
      Runs C (.call o k) s r s'

/-- A run ends in the postcondition. -/
theorem Runs.post {p : Program I ε α} {r : Except ε α} {s' : M.State} (h : Runs C p s r s')
    (hw : wp C p Q s) : Q r s' := by
  induction h with
  | done r s => exact hw
  | call e he _ ih => exact ih (hw e he).2

/-- A property of every complete run is a weakest precondition, once the guarantee is free. -/
theorem wp_of_runs {p : Program I ε α} (hG : ∀ o s s', C.guarantee o s s')
    (h : ∀ r s', Runs C p s r s' → Q r s') : wp C p Q s := by
  induction p generalizing s with
  | done r => exact h r s (.done r s)
  | call o k ih => exact fun e he => ⟨hG _ _ _, ih _ fun r s' hr => h r s' (.call e he hr)⟩

/-! ## Stopped runs -/

/-- `p` can get from `s` to `s'` by some number of its operations: a run that went on, or one that
stopped there. -/
inductive Visits (C : Contract M) : Program I ε α → M.State → M.State → Prop where
  | here (p : Program I ε α) (s : M.State) : Visits C p s s
  | next {o : I.Op} {k : I.Resp o → Program I ε α} {s s' : M.State} (e : M.Env)
      (he : C.assume o e s) (rest : Visits C (k (M.step o e s).1) (M.step o e s).2 s') :
      Visits C (.call o k) s s'

/-- What the guarantee keeps holds wherever a run stops. -/
theorem Visits.invariant {C' : Contract M} {J : M.State → Prop} {p : Program I ε α}
    {s' : M.State} (h : Visits C p s s') (hw : wp C' p Q s)
    (hassume : ∀ o e s, C.assume o e s → C'.assume o e s)
    (hG : ∀ o s t, C'.guarantee o s t → J s → J t) (hJ : J s) : J s' := by
  induction h with
  | here p s => exact hJ
  | next e he _ ih =>
    have hstep := hw e (hassume _ e _ he)
    exact ih hstep.2 (hG _ _ _ hstep.1 hJ)

/-! ## Evaluation -/

/-- The run of `p` in which the `i`-th operation from now on gets the environment's choice
`env i`. -/
def eval (M : Machine I) (env : Nat → M.Env) : Nat → Program I ε α → M.State → Except ε α × M.State
  | _, .done r, s => (r, s)
  | i, .call o k, s => eval M env (i + 1) (k (M.step o (env i) s).1) (M.step o (env i) s).2

theorem eval_runs {env : Nat → M.Env} (henv : ∀ i o s, C.assume o (env i) s) (i : Nat)
    (p : Program I ε α) (s : M.State) : Runs C p s (eval M env i p s).1 (eval M env i p s).2 := by
  induction p generalizing i s with
  | done r => exact .done r s
  | call o k ih => exact .call (env i) (henv i o s) (ih _ (i + 1) _)

/-- A run from the index `i` on sees the choices from there on only. -/
theorem eval_congr {env env' : Nat → M.Env} {i : Nat} (h : ∀ j, i ≤ j → env j = env' j)
    (p : Program I ε α) (s : M.State) : eval M env i p s = eval M env' i p s := by
  induction p generalizing i s with
  | done r => rfl
  | call o k ih =>
    rw [eval, eval, h i (Nat.le_refl i)]
    exact ih _ (fun j hj => h j (Nat.le_of_succ_le hj)) _

/-- A complete run is the evaluation under some choices, written as values of `g`. -/
theorem Runs.exists_eval {γ : Type} [Inhabited γ] (g : γ → M.Env)
    (hg : ∀ o e s, C.assume o e s → ∃ x, g x = e) {p : Program I ε α} {r : Except ε α}
    {s' : M.State} (h : Runs C p s r s') (i : Nat) :
    ∃ choice : Nat → γ, eval M (fun j => g (choice j)) i p s = (r, s') := by
  induction p generalizing i s with
  | done r =>
    cases h
    exact ⟨fun _ => default, rfl⟩
  | call o k ih =>
    cases h with
    | call e he rest =>
      obtain ⟨choice, hchoice⟩ := ih _ rest (i + 1)
      obtain ⟨x, rfl⟩ := hg o e s he
      refine ⟨fun j => if j = i then x else choice j, ?_⟩
      have hnow : g (if i = i then x else choice i) = g x := by rw [if_pos rfl]
      rw [eval, hnow, ← hchoice]
      refine eval_congr (fun j hj => ?_) _ _
      show g (if j = i then x else choice j) = g (choice j)
      rw [if_neg (Nat.ne_of_gt hj)]

/-- Under one constant choice the index does not matter. -/
theorem eval_const_shift (e : M.Env) (i j : Nat) (p : Program I ε α) (s : M.State) :
    eval M (fun _ => e) i p s = eval M (fun _ => e) j p s := by
  induction p generalizing i j s with
  | done r => rfl
  | call o k ih => exact ih _ (i + 1) (j + 1) _

/-- Under one constant choice, the run of a sequence is the runs of its parts. -/
theorem eval_bind_const (e : M.Env) (p : Program I ε α) (f : α → Program I ε β) (s : M.State) :
    eval M (fun _ => e) 0 (p.bind f) s =
      match eval M (fun _ => e) 0 p s with
      | (.ok a, t) => eval M (fun _ => e) 0 (f a) t
      | (.error x, t) => (.error x, t) := by
  induction p generalizing s with
  | done r => cases r <;> rfl
  | call o k ih =>
    show eval M (fun _ => e) 1 ((k _).bind f) _ = match eval M (fun _ => e) 1 (k _) _ with
      | (.ok a, t) => eval M (fun _ => e) 0 (f a) t
      | (.error x, t) => (.error x, t)
    rw [eval_const_shift e 1 0 ((k _).bind f), eval_const_shift e 1 0 (k _)]
    exact ih _ _

/-- The evaluation ends in the postcondition. -/
theorem wp_eval {env : Nat → M.Env} (henv : ∀ i o s, C.assume o (env i) s) (i : Nat)
    {p : Program I ε α} (h : wp C p Q s) : Q (eval M env i p s).1 (eval M env i p s).2 :=
  (eval_runs henv i p s).post h

end Program

end Proc
