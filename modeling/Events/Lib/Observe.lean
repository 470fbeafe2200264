import Events.Lib.Interleave

/-!
# What a call knows between its operations

A call that holds no lock still knows something: what it read stays true as far as the other calls
cannot change it. The *rely* is a relation that every step of the system is known to satisfy; a
fact that is stable under it may be carried from one operation of the call to the next.

* **`Rely`** — the relation, transitive, and what may be assumed of the environment's choices.
* **`Rely.observes`** — every result of the program satisfies the postcondition, whatever the other
  calls do between its operations.
* **`Rely.observes_step`** — the rule: every step of the system within the rely keeps what every
  call observes.
-/

namespace Proc

open Program

variable {I : Interface} {H : Type}

/-- How the state may change behind a call of the service `S`. -/
structure Rely (S : Service I H) where
  rel : S.State → S.State → Prop
  allow : H → (o : I.Op) → S.Env → S.State → Prop
  trans : ∀ {s₁ s₂ s₃}, rel s₁ s₂ → rel s₂ s₃ → rel s₁ s₃

namespace Rely

variable {S : Service I H} {α β : Type} (R : Rely S) (h : H)

/-- The program finishes with `Q`, the state changing by `R` before each of its operations and at
its end. The lock commands give it no knowledge. -/
def observes : Program (locked S.Note I) S.Err α → (Except S.Err α → S.State → Prop) →
    S.State → Prop
  | .done r, Q, s => ∀ s', R.rel s s' → Q r s'
  | .call .acquireRead k, Q, s => observes (k ()) Q s
  | .call .releaseRead k, Q, s => observes (k ()) Q s
  | .call (.acquireWrite _) k, Q, s => observes (k ()) Q s
  | .call .releaseWrite k, Q, s => observes (k ()) Q s
  | .call (.op o) k, Q, s => ∀ s', R.rel s s' → ∀ e, R.allow h o e s' →
      observes (k (S.step h o e s').1) Q (S.step h o e s').2

variable {R h} {s s' : S.State}

/-- What a call observes survives the steps of the others. -/
theorem observes_stable {p : Program (locked S.Note I) S.Err α}
    {Q : Except S.Err α → S.State → Prop} (hp : R.observes h p Q s) (hR : R.rel s s') :
    R.observes h p Q s' := by
  induction p with
  | done r => exact fun s'' h'' => hp s'' (R.trans hR h'')
  | call o k ih =>
    cases o with
    | acquireRead => exact ih _ hp
    | releaseRead => exact ih _ hp
    | acquireWrite n => exact ih _ hp
    | releaseWrite => exact ih _ hp
    | op o => exact fun s'' h'' => hp s'' (R.trans hR h'')

/-- Sequencing. What the first program observes about its result has to be stable. -/
theorem observes_bind {p : Program (locked S.Note I) S.Err α}
    {f : α → Program (locked S.Note I) S.Err β} {Q : Except S.Err β → S.State → Prop}
    {P : Except S.Err α → S.State → Prop} (hp : R.observes h p P s)
    (hrefl : ∀ s, R.rel s s)
    (hok : ∀ a s, P (.ok a) s → R.observes h (f a) Q s)
    (herr : ∀ e s, P (.error e) s → Q (.error e) s) : R.observes h (p.bind f) Q s := by
  induction p generalizing s with
  | done r =>
    cases r with
    | ok a => exact hok a s (hp s (hrefl s))
    | error e => exact fun s' hs' => herr e s' (hp s' hs')
  | call o k ih =>
    cases o with
    | acquireRead => exact ih _ hp
    | releaseRead => exact ih _ hp
    | acquireWrite n => exact ih _ hp
    | releaseWrite => exact ih _ hp
    | op o => exact fun s' hs' e he => ih _ (hp s' hs' e he)

theorem observes_attempt {p : Program (locked S.Note I) S.Err α}
    {Q : Except S.Err (Except S.Err α) → S.State → Prop}
    (hp : R.observes h p (fun r s => Q (.ok r) s) s) : R.observes h p.attempt Q s := by
  induction p generalizing s with
  | done r => exact hp
  | call o k ih =>
    cases o with
    | acquireRead => exact ih _ hp
    | releaseRead => exact ih _ hp
    | acquireWrite n => exact ih _ hp
    | releaseWrite => exact ih _ hp
    | op o => exact fun s' hs' e he => ih _ (hp s' hs' e he)

/-- What is observed of a result stays so. -/
theorem observes_closed {p : Program (locked S.Note I) S.Err α}
    {Q : Except S.Err α → S.State → Prop} (hp : R.observes h p Q s) :
    R.observes h p (fun r s => ∀ s', R.rel s s' → Q r s') s := by
  induction p generalizing s with
  | done r => exact fun s' hs' s'' hs'' => hp s'' (R.trans hs' hs'')
  | call o k ih =>
    cases o with
    | acquireRead => exact ih _ hp
    | releaseRead => exact ih _ hp
    | acquireWrite n => exact ih _ hp
    | releaseWrite => exact ih _ hp
    | op o => exact fun s' hs' e he => ih _ (hp s' hs' e he)

theorem observes_withRead {body : Program I S.Err α} {Q : Except S.Err α → S.State → Prop}
    (hrefl : ∀ s, R.rel s s) (hp : R.observes h body.lift Q s) :
    R.observes h (Program.withRead body) Q s := by
  refine observes_bind (P := fun r s => match r with
    | .ok q => ∀ s', R.rel s s' → Q q s'
    | .error _ => False) (observes_attempt (observes_closed hp)) hrefl ?_ ?_
  · exact fun q s hq => hq
  · exact fun e s hq => hq.elim

theorem observes_withWrite {n : S.Note} {body : Program I S.Err α}
    {Q : Except S.Err α → S.State → Prop}
    (hrefl : ∀ s, R.rel s s) (hp : R.observes h body.lift Q s) :
    R.observes h (Program.withWrite n body) Q s := by
  refine observes_bind (P := fun r s => match r with
    | .ok q => ∀ s', R.rel s s' → Q q s'
    | .error _ => False) (observes_attempt (observes_closed hp)) hrefl ?_ ?_
  · exact fun q s hq => hq
  · exact fun e s hq => hq.elim

/-! ## The rule -/

section Rule

variable {T : Type} [DecidableEq T] {c c' : Config S T} {l : Label S T}
  {Post : H → S.Call → Except S.Err S.Ans → S.State → Prop} {P : T → Prop}

/-- Every call made by a client in `P` observes its postcondition. -/
def Observed (R : Rely S) (Post : H → S.Call → Except S.Err S.Ans → S.State → Prop)
    (P : T → Prop) (c : Config S T) : Prop :=
  ∀ t task, P t → c.tasks t = some task →
    R.observes task.handle task.prog (Post task.handle task.call) c.st

/-- A call goes on: what it observes next, the others being left to the rely. -/
theorem Observed.advance {t : T} {h : H} {call : S.Call}
    {p : Program (locked S.Note I) S.Err S.Ans} {s : S.State} (L : H → RwLock T)
    (hc : R.Observed Post P c) (hR : R.rel c.st s)
    (hp : P t → R.observes h p (Post h call) s) :
    R.Observed Post P ⟨s, L, c.advance t h call p⟩ := by
  intro u task hu htask
  by_cases hut : u = t
  · subst hut
    simp only [Config.advance, Function.update_self, Option.some.injEq] at htask
    subst htask
    exact hp hu
  · simp only [Config.advance, Function.update_of_ne hut] at htask
    exact observes_stable (hc u task hu htask) hR

/-- **The rely rule**: a step within the rely keeps what every call observes. -/
theorem observed_step [DecidableEq H] (hrefl : ∀ s, R.rel s s) (hc : R.Observed Post P c) (hstep : Step c l c')
    (hR : R.rel c.st c'.st)
    (hcode : ∀ t h call, P t → l = .invoke t h call → R.observes h (S.code call) (Post h call) c.st)
    (hallow : ∀ t h o e, l = .op t h o e → R.allow h o e c.st) : R.Observed Post P c' := by
  cases hstep with
  | invoke t h call hfree hready =>
    exact hc.advance c.lock (hrefl _) fun ht => hcode t h call ht rfl
  | op t h call o k e ht =>
    exact hc.advance c.lock hR fun hP => hc t _ hP ht c.st (hrefl _) e (hallow t h o e rfl)
  | acquireRead t h call k ht => exact hc.advance _ (hrefl _) fun hP => hc t _ hP ht
  | releaseRead t h call k ht => exact hc.advance _ (hrefl _) fun hP => hc t _ hP ht
  | acquireWrite t h call note k ht => exact hc.advance _ (hrefl _) fun hP => hc t _ hP ht
  | releaseWrite t h call k ht => exact hc.advance _ (hrefl _) fun hP => hc t _ hP ht
  | respond t h call r ht hr =>
    intro u task hu htask
    by_cases hut : u = t
    · simp [hut] at htask
    · exact hc u task hu (by simpa [hut] using htask)
  | restart => intro u task hu htask; cases htask

/-- What an answer satisfies. -/
theorem Observed.respond [DecidableEq H] (hrefl : ∀ s, R.rel s s) (hc : R.Observed Post P c) {t : T} {h : H}
    {call : S.Call} {r : Except S.Err S.Ans} (hP : P t)
    (hstep : Step c (.respond t h call r) c') : Post h call r c.st := by
  cases hstep with
  | respond t h call r ht hr => exact hc t _ hP ht c.st (hrefl _)

end Rule

end Rely
end Proc
