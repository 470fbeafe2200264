import Events.Lib.Program

/-!
# Programs that carry out other programs

One component can be modelled twice: over an interface of its own, and over the interface of a greater
system. A program of the second model carries out one of the first when it performs, one for one, the
operations that stand for the other's, and goes on alike after every answer.

* **`Carries`** — the relation between the two programs; `Carries.bind` composes it.
* **`Simulates`** — the relation between the two machines: what an operation answers and does is what
  the operation that stands for it answers and does.
* **`Carries.visits`**, **`Carries.eval`** — wherever the one program stops or ends, the other one can
  stop or ends, in a related state.
-/

namespace Proc

/-- For every operation of `I'` one of `I`, and what the answer to it says. -/
structure Translation (I I' : Interface) where
  op : I'.Op → I.Op
  answer : (o : I'.Op) → I.Resp (op o) → I'.Resp o

/-- The machine `M` does for `T.op o` what `M'` does for `o`, in related states. -/
structure Simulates {I I' : Interface} (T : Translation I I') (M : Machine I) (M' : Machine I')
    (env : M.Env → M'.Env) (At : M.State → M'.State → Prop) : Prop where
  answer : ∀ o e s s', At s s' → T.answer o (M.step (T.op o) e s).1 = (M'.step o (env e) s').1
  state : ∀ o e s s', At s s' → At (M.step (T.op o) e s).2 (M'.step o (env e) s').2

namespace Program

variable {I I' : Interface} {ε ε' α α' β β' : Type}

/-- `p` performs the operations that stand for those of `q`. It returns where `q` returns, with a
related result, and fails where `q` fails. -/
inductive Carries (T : Translation I I') (R : α → α' → Prop) :
    Program I ε α → Program I' ε' α' → Prop where
  | ok {a : α} {a' : α'} (h : R a a') : Carries T R (.done (.ok a)) (.done (.ok a'))
  | error (e : ε) (e' : ε') : Carries T R (.done (.error e)) (.done (.error e'))
  | call (o : I'.Op) {k : I.Resp (T.op o) → Program I ε α} {k' : I'.Resp o → Program I' ε' α'}
      (h : ∀ x, Carries T R (k x) (k' (T.answer o x))) : Carries T R (.call (T.op o) k) (.call o k')

/-- How two programs end: both return, with related results, or both fail. -/
def Agree (R : α → α' → Prop) : Except ε α → Except ε' α' → Prop
  | .ok a, .ok a' => R a a'
  | .error _, .error _ => True
  | _, _ => False

section Carries

variable {T : Translation I I'} {R : α → α' → Prop} {R' : β → β' → Prop} {p : Program I ε α}
  {q : Program I' ε' α'}

/-- Sequencing. -/
theorem Carries.bind {f : α → Program I ε β} {g : α' → Program I' ε' β'} (h : Carries T R p q)
    (hf : ∀ a a', R a a' → Carries T R' (f a) (g a')) : Carries T R' (p.bind f) (q.bind g) := by
  induction h with
  | ok ha => exact hf _ _ ha
  | error e e' => exact .error e e'
  | call o _ ih => exact .call o ih

variable {M : Machine I} {M' : Machine I'} {env : M.Env → M'.Env} {At : M.State → M'.State → Prop}

/-- Wherever `p` stops, `q` can stop, in a related state. -/
theorem Carries.visits {C : Contract M} {C' : Contract M'} (h : Carries T R p q)
    (hsim : Simulates T M M' env At)
    (hassume : ∀ o e s s', At s s' → C.assume (T.op o) e s → C'.assume o (env e) s')
    {s t : M.State} {s' : M'.State} (hs : At s s') (hv : Visits C p s t) :
    ∃ t', Visits C' q s' t' ∧ At t t' := by
  induction h generalizing s s' with
  | ok ha =>
    cases hv
    exact ⟨s', .here _ _, hs⟩
  | error e e' =>
    cases hv
    exact ⟨s', .here _ _, hs⟩
  | call o _ ih =>
    cases hv with
    | here => exact ⟨s', .here _ _, hs⟩
    | next e he rest =>
      obtain ⟨t', hv', ht⟩ := ih _ (hsim.state o e s s' hs) rest
      rw [hsim.answer o e s s' hs] at hv'
      exact ⟨t', .next (env e) (hassume o e s s' hs he) hv', ht⟩

/-- Under the same choices both programs end alike, in related states. -/
theorem Carries.eval (h : Carries T R p q) (hsim : Simulates T M M' env At) (choice : Nat → M.Env)
    (i : Nat) {s : M.State} {s' : M'.State} (hs : At s s') :
    Agree R (p.eval M choice i s).1 (q.eval M' (fun j => env (choice j)) i s').1 ∧
      At (p.eval M choice i s).2 (q.eval M' (fun j => env (choice j)) i s').2 := by
  induction h generalizing i s s' with
  | ok ha => exact ⟨ha, hs⟩
  | error e e' => exact ⟨trivial, hs⟩
  | call o _ ih =>
    have htail := ih (M.step (T.op o) (choice i) s).1 (i + 1) (hsim.state o (choice i) s s' hs)
    rw [hsim.answer o (choice i) s s' hs] at htail
    exact htail

end Carries

end Program

end Proc
