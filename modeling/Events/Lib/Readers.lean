import Events.Lib.LockLogic

/-!
# Readers beside a service

Calls that take no lock and only look can be added to a service without touching its proofs: every
discipline of the service is one of the larger service too.

* **`Service.withReads`** — the service with further calls.
* **`Discipline.withReads`**, **`Lawful.withReads`** — what is known of the service carries over.
* **`Program.wp_both`** — two specifications of one program with what both guarantee.
-/

namespace Proc

open Program

variable {I : Interface} {H : Type}

/-- The service `S` with the calls `R`, which take no lock. -/
abbrev Service.withReads (S : Service I H) {R : Type} (body : R → Program I S.Err S.Ans)
    (ready : H → R → S.State → Bool) : Service I H where
  Note := S.Note
  Err := S.Err
  Call := S.Call ⊕ R
  Ans := S.Ans
  State := S.State
  Env := S.Env
  step := S.step
  code := Sum.elim S.code fun r => (body r).lift
  ready h := Sum.elim (S.ready h) (ready h)
  returns := S.returns
  restart := S.restart

namespace Program

variable {M : Machine I} {A : (o : I.Op) → M.Env → M.State → Prop}
  {G G' : I.Op → M.State → M.State → Prop} {ε α : Type} {s : M.State}

/-- Two specifications of one program, with what both guarantee of its operations. -/
theorem wp_both {p : Program I ε α} {Q Q' : Except ε α → M.State → Prop}
    (h : wp ⟨A, G⟩ p Q s) (h' : wp ⟨A, G'⟩ p Q' s) :
    wp ⟨A, fun o s s' => G o s s' ∧ G' o s s'⟩ p (fun r s => Q r s ∧ Q' r s) s := by
  induction p generalizing s with
  | done r => exact ⟨h, h'⟩
  | call o k ih =>
    intro e he
    exact ⟨⟨(h e he).1, (h' e he).1⟩, ih _ (h e he).2 (h' e he).2⟩

/-- A program without any restriction on its answers. -/
theorem yields_anything (p : Program I ε α) : p.Yields (fun _ _ => True) fun _ => True := by
  induction p with
  | done r => trivial
  | call o k ih => exact fun x _ => ih x

end Program

namespace Discipline

variable {S : Service I Unit} {Γ R : Type} {body : R → Program I S.Err S.Ans}
  {ready : Unit → R → S.State → Bool} {Post : S.Call → Except S.Err S.Ans → Γ → Prop}

/-- The discipline `D`, the new calls having the ghost value `γ`. -/
abbrev withReads (D : Discipline S Γ) (body : R → Program I S.Err S.Ans)
    (ready : Unit → R → S.State → Bool) (γ : Γ) : Discipline (S.withReads body ready) Γ where
  allow := D.allow
  allowWrite := D.allowWrite
  restarts := D.restarts
  inv := D.inv
  always := D.always
  guarantee := D.guarantee
  ghost₀ := Sum.elim D.ghost₀ fun _ => γ
  ghost := D.ghost

variable {D : Discipline S Γ} {γ : Γ}

/-- A program is safe for the larger service if it is for the service. -/
theorem safe_withReads {α : Type} {p : Program (locked S.Note I) S.Err α}
    {Q : Except S.Err α → Mode → Γ → S.State → Prop} {m : Mode} {g : Γ} {s : S.State}
    (h : D.safe p Q m g s) : (D.withReads body ready γ).safe p Q m g s := by
  induction p generalizing m g s with
  | done r => exact h
  | call o k ih =>
    cases o with
    | acquireRead => exact ⟨h.1, ih _ h.2⟩
    | releaseRead => exact ⟨h.1, ih _ h.2⟩
    | acquireWrite n => exact ⟨h.1, fun s hs hn => ih _ (h.2 s hs hn)⟩
    | releaseWrite => exact ⟨h.1, h.2.1, ih _ h.2.2⟩
    | op o =>
      cases m with
      | writing => exact fun e he => ⟨(h e he).1, (h e he).2.1, ih _ (h e he).2.2⟩
      | free =>
        exact fun s e ha hr he =>
          ⟨(h s e ha hr he).1, (h s e ha hr he).2.1, ih _ (h s e ha hr he).2.2⟩
      | reading =>
        exact fun s e ha hr he =>
          ⟨(h s e ha hr he).1, (h s e ha hr he).2.1, ih _ (h s e ha hr he).2.2⟩

/-- **A lawful discipline stays lawful** when calls that only look are added. -/
theorem Lawful.withReads (hL : D.Lawful Post) (hbody : ∀ r, (body r).All D.Passive) :
    (D.withReads body ready γ).Lawful
      (Sum.elim Post fun _ _ _ => True) where
  always_of_inv := hL.always_of_inv
  code call s hs hready := by
    cases call with
    | inl call => exact safe_withReads (hL.code call s hs hready)
    | inr r =>
      exact safe_withReads (safe_lift_passive (by decide) (hbody r) (yields_anything _)
        (fun _ _ _ _ _ => trivial) fun _ _ _ => ⟨rfl, trivial⟩)
  restart_idle := hL.restart_idle
  restart_anytime := hL.restart_anytime

end Discipline

end Proc
