import Events.Lib.Interleave

/-!
# What a call knows from its answers

A call acts on what its operations have answered. An *account* keeps that knowledge, says what may be
assumed of an answer, and asks something of a command before it is given: an obligation on what the
call knows, not on the state of the system. Whether the knowledge is still true when it is used is a
question about the run, and is answered there.

* **`Account`**, **`Account.follows`** — the programs that give a command only with the knowledge that
  it asks for.
* **`Account.answered_step`** — the rule: every step keeps what every call follows to its answer.
-/

namespace Proc

open Program

variable {I : Interface} {H : Type}

/-- What the calls of a service know and what is asked of them. -/
structure Account (S : Service I H) (K : Type) where
  learn : (o : I.Op) → I.Resp o → K → K
  expect : K → (o : I.Op) → I.Resp o → Prop
  ask : K → Cmd S.Note I → Prop

namespace Account

variable {S : Service I H} {K α β : Type} (A : Account S K)

/-- Every command of the program is given with the knowledge it asks for, and every result satisfies
`Q`. -/
def follows : Program (locked S.Note I) S.Err α → (Except S.Err α → K → Prop) → K → Prop
  | .done r, Q, k => Q r k
  | .call .acquireRead p, Q, k => A.ask k .acquireRead ∧ follows (p ()) Q k
  | .call .releaseRead p, Q, k => A.ask k .releaseRead ∧ follows (p ()) Q k
  | .call (.acquireWrite n) p, Q, k => A.ask k (.acquireWrite n) ∧ follows (p ()) Q k
  | .call .releaseWrite p, Q, k => A.ask k .releaseWrite ∧ follows (p ()) Q k
  | .call (.op o) p, Q, k => A.ask k (.op o) ∧
      ∀ x, A.expect k o x → follows (p x) Q (A.learn o x k)

variable {A} {k : K}

theorem follows_mono {p : Program (locked S.Note I) S.Err α} {Q Q' : Except S.Err α → K → Prop}
    (h : A.follows p Q k) (hQ : ∀ r k, Q r k → Q' r k) : A.follows p Q' k := by
  induction p generalizing k with
  | done r => exact hQ r k h
  | call o p ih =>
    cases o with
    | op o => exact ⟨h.1, fun x hx => ih x (h.2 x hx)⟩
    | acquireRead => exact ⟨h.1, ih _ h.2⟩
    | releaseRead => exact ⟨h.1, ih _ h.2⟩
    | acquireWrite n => exact ⟨h.1, ih _ h.2⟩
    | releaseWrite => exact ⟨h.1, ih _ h.2⟩

/-- Sequencing. -/
theorem follows_bind {p : Program (locked S.Note I) S.Err α}
    {f : α → Program (locked S.Note I) S.Err β} {Q : Except S.Err β → K → Prop} :
    A.follows (p.bind f) Q k ↔ A.follows p (fun r k => match r with
      | .ok a => A.follows (f a) Q k
      | .error e => Q (.error e) k) k := by
  induction p generalizing k with
  | done r => cases r <;> exact Iff.rfl
  | call o p ih =>
    cases o with
    | op o => exact and_congr_right fun _ => forall_congr' fun x => imp_congr_right fun _ => ih x
    | acquireRead => exact and_congr_right fun _ => ih _
    | releaseRead => exact and_congr_right fun _ => ih _
    | acquireWrite n => exact and_congr_right fun _ => ih _
    | releaseWrite => exact and_congr_right fun _ => ih _

theorem follows_attempt {p : Program (locked S.Note I) S.Err α}
    {Q : Except S.Err (Except S.Err α) → K → Prop} :
    A.follows p.attempt Q k ↔ A.follows p (fun r k => Q (.ok r) k) k := by
  induction p generalizing k with
  | done r => exact Iff.rfl
  | call o p ih =>
    cases o with
    | op o => exact and_congr_right fun _ => forall_congr' fun x => imp_congr_right fun _ => ih x
    | acquireRead => exact and_congr_right fun _ => ih _
    | releaseRead => exact and_congr_right fun _ => ih _
    | acquireWrite n => exact and_congr_right fun _ => ih _
    | releaseWrite => exact and_congr_right fun _ => ih _

/-- A body whose operations ask for nothing that `J` does not give, and keep it. -/
theorem follows_of_all {p : Program I S.Err α} {P : I.Op → Prop} {J : K → Prop} (hp : p.All P)
    (hJ : J k) (hstep : ∀ o, P o → ∀ k, J k → A.ask k (.op o) ∧
      ∀ x, A.expect k o x → J (A.learn o x k)) : A.follows p.lift (fun _ k => J k) k := by
  induction p generalizing k with
  | done r => exact hJ
  | call o p ih =>
    have h := hstep o hp.1 k hJ
    exact ⟨h.1, fun x hx => ih x (hp.2 x) (h.2 x hx)⟩

/-- A body under the read lock, whose commands ask for nothing. -/
theorem follows_withRead {body : Program I S.Err α} {Q : Except S.Err α → K → Prop}
    (hlock : ∀ k, A.ask k .acquireRead ∧ A.ask k .releaseRead) (h : A.follows body.lift Q k) :
    A.follows (Program.withRead body) Q k := by
  refine ⟨(hlock k).1, ?_⟩
  rw [follows_bind, follows_attempt]
  exact follows_mono h fun r k hr => ⟨(hlock k).2, hr⟩

/-- A body under the write lock. -/
theorem follows_withWrite {n : S.Note} {body : Program I S.Err α} {Q : Except S.Err α → K → Prop}
    (hn : A.ask k (.acquireWrite n)) (hlock : ∀ k, A.ask k .releaseWrite)
    (h : A.follows body.lift Q k) : A.follows (Program.withWrite n body) Q k := by
  refine ⟨hn, ?_⟩
  rw [follows_bind, follows_attempt]
  exact follows_mono h fun r k hr => ⟨hlock k, hr⟩

/-! ## The rule -/

section Rule

variable {T : Type} [DecidableEq T] {c c' : Config S T} {l : Label S T} {know : T → K}
  {Post : S.Call → Except S.Err S.Ans → K → Prop}

/-- Every call follows the account from what it knows, to its postcondition. -/
def Answered (A : Account S K) (Post : S.Call → Except S.Err S.Ans → K → Prop) (c : Config S T)
    (know : T → K) : Prop :=
  ∀ t task, c.tasks t = some task → A.follows task.prog (Post task.call) (know t)

/-- What the calls know after a step, a new call knowing `k₀` of itself. -/
def trackFrom (A : Account S K) (k₀ : S.Call → K) (c : Config S T) (know : T → K) :
    Label S T → T → K
  | .invoke t _ made => Function.update know t (k₀ made)
  | .op t h o e => Function.update know t (A.learn o (S.step h o e c.st).1 (know t))
  | _ => know

theorem Answered.advance {t : T} {h : H} {call : S.Call} {s : S.State} {L : H → RwLock T}
    {p : Program (locked S.Note I) S.Err S.Ans} (hF : A.Answered Post c know)
    (hp : A.follows p (Post call) k) :
    A.Answered Post ⟨s, L, c.advance t h call p⟩ (Function.update know t k) := by
  intro u task hu
  by_cases hut : u = t
  · subst hut
    simp only [Config.advance, Function.update_self, Option.some.injEq] at hu ⊢
    subst hu
    exact hp
  · simp only [Config.advance, Function.update_of_ne hut] at hu ⊢
    exact hF u task hu

/-- **The rule of accounts**: a step whose answer is one that is expected keeps what every call
follows. -/
theorem answered_step [DecidableEq H] (k₀ : S.Call → K) (hF : A.Answered Post c know)
    (hstep : Step c l c')
    (hexpect : ∀ t h o e, l = .op t h o e → A.expect (know t) o (S.step h o e c.st).1)
    (hcode : ∀ t h call, l = .invoke t h call → A.follows (S.code call) (Post call) (k₀ call)) :
    A.Answered Post c' (A.trackFrom k₀ c know l) := by
  -- a lock command teaches nothing
  have hsame : ∀ {t : T} {h : H} {call : S.Call} {L : H → RwLock T}
      {p : Program (locked S.Note I) S.Err S.Ans}, A.follows p (Post call) (know t) →
      A.Answered Post ⟨c.st, L, c.advance t h call p⟩ know := fun {t} h call L p hp => by
    have := hF.advance hp (s := c.st) (L := L) (t := t) (h := h)
    rwa [Function.update_eq_self] at this
  cases hstep with
  | invoke t h call hfree hready => exact hF.advance (hcode t h call rfl)
  | op t h call o p e ht => exact hF.advance ((hF t _ ht).2 _ (hexpect t h o e rfl))
  | acquireRead t h call p ht => exact hsame (hF t _ ht).2
  | releaseRead t h call p ht => exact hsame (hF t _ ht).2
  | acquireWrite t h call n p ht => exact hsame (hF t _ ht).2
  | releaseWrite t h call p ht => exact hsame (hF t _ ht).2
  | respond t h call r ht hr =>
    intro u task hu
    by_cases hut : u = t
    · simp [hut] at hu
    · exact hF u task (by simpa [hut] using hu)
  | restart => intro u task hu; cases hu

/-- A call that takes the write lock knows what the lock asks for. -/
theorem Answered.acquireWrite [DecidableEq H] (hF : A.Answered Post c know) {t : T} {h : H}
    {n : S.Note} (hstep : Step c (.acquireWrite t h n) c') : A.ask (know t) (.acquireWrite n) := by
  cases hstep with
  | acquireWrite t h call n p ht => exact (hF t _ ht).1

/-! ## Accounts without a postcondition -/

/-- Every call follows the account from what it knows. -/
def Followed (A : Account S K) (c : Config S T) (know : T → K) : Prop :=
  ∀ t task, c.tasks t = some task → A.follows task.prog (fun _ _ => True) (know t)

/-- What the calls know after a step, a new call knowing `k₀`. -/
def track (A : Account S K) (k₀ : K) (c : Config S T) (know : T → K) : Label S T → T → K
  | .invoke t _ _ => Function.update know t k₀
  | .op t h o e => Function.update know t (A.learn o (S.step h o e c.st).1 (know t))
  | _ => know

omit [DecidableEq T] in
theorem Followed.answered (hF : A.Followed c know) : A.Answered (fun _ _ _ => True) c know := hF

theorem trackFrom_const (k₀ : K) : A.trackFrom (fun _ => k₀) c know l = A.track k₀ c know l := by
  cases l <;> rfl

theorem followed_step [DecidableEq H] (k₀ : K) (hF : A.Followed c know) (hstep : Step c l c')
    (hexpect : ∀ t h o e, l = .op t h o e → A.expect (know t) o (S.step h o e c.st).1)
    (hcode : ∀ t h call, l = .invoke t h call → A.follows (S.code call) (fun _ _ => True) k₀) :
    A.Followed c' (A.track k₀ c know l) := by
  rw [← trackFrom_const]
  exact answered_step (fun _ => k₀) hF.answered hstep hexpect hcode

theorem Followed.acquireWrite [DecidableEq H] (hF : A.Followed c know) {t : T} {h : H} {n : S.Note}
    (hstep : Step c (.acquireWrite t h n) c') : A.ask (know t) (.acquireWrite n) :=
  hF.answered.acquireWrite hstep

end Rule

end Account
end Proc
