import Events.Lib.Interleave

/-!
# One call at a time

With a single client the interleaving semantics runs one call after the other: the locks are
never contended and nobody changes the state behind a call. A call is then verified by its weakest
precondition over the whole state, together with a history that its operations extend.

* **`solo`** — the machine of a service with one handle and one client.
* **`wp_solo_lift`**, **`wp_solo_withRead`**, **`wp_solo_withWrite`** — a body, alone and under the lock.
* **`SoloInv`** — between two calls the invariant holds; during a call what is left of it will
  establish the invariant.
* **`solo_step`** — the rule.
-/

namespace Proc

open Program

variable {I : Interface} {Γ : Type}

/-- The machine of one client: the state with a history, and lock commands that do nothing. -/
abbrev solo (S : Service I Unit) (note : (o : I.Op) → S.Env → Γ → Γ) : Machine (locked S.Note I) where
  State := S.State × Γ
  Env := S.Env
  step
    | .op o, e, s => ((S.step () o e s.1).1, (S.step () o e s.1).2, note o e s.2)
    | .acquireRead, _, s => ((), s)
    | .releaseRead, _, s => ((), s)
    | .acquireWrite _, _, s => ((), s)
    | .releaseWrite, _, s => ((), s)

variable {S : Service I Unit} {note : (o : I.Op) → S.Env → Γ → Γ} {C : Contract (solo S note)}
  {J : S.State × Γ → Prop} {allowed : S.Call → Prop} {c c' : Config S Unit} {γ : Γ} {l : Label S Unit}

/-! ## Bodies -/

section Bodies

variable {α : Type} {body : Program I S.Err α} {Q : Except S.Err α → S.State × Γ → Prop}

/-- A body is verified without the history; what its operations do to the history is in `K`. -/
theorem wp_solo_lift {C₀ : Contract (⟨S.State, S.Env, S.step ()⟩ : Machine I)} {P : I.Op → Prop}
    {K : Γ → Γ → Prop} {R : Except S.Err α → S.State → Prop} {s : S.State} (hall : body.All P)
    (hrefl : ∀ γ, K γ γ) (htrans : ∀ γ₁ γ₂ γ₃, K γ₁ γ₂ → K γ₂ γ₃ → K γ₁ γ₃)
    (hop : ∀ o, P o → ∀ e s γ, C.assume (.op o) e (s, γ) → C₀.assume o e s ∧ K γ (note o e γ) ∧
      (C₀.guarantee o s (S.step () o e s).2 →
        C.guarantee (.op o) (s, γ) ((S.step () o e s).2, note o e γ)))
    (hp : wp C₀ body R s) : wp C body.lift (fun r s' => R r s'.1 ∧ K γ s'.2) (s, γ) := by
  induction body generalizing s γ with
  | done r => exact ⟨hp, hrefl γ⟩
  | call o k ih =>
    intro e he
    obtain ⟨he₀, hK, hG⟩ := hop o hall.1 e s γ he
    refine ⟨hG (hp e he₀).1, wp_mono (ih _ (hall.2 _) (hp e he₀).2) fun r s' hr => ?_⟩
    exact ⟨hr.1, htrans _ _ _ hK hr.2⟩

/-- The read lock is always free for one client, so a body behind it is verified as it stands. -/
theorem wp_solo_withRead {s : S.State × Γ}
    (hlock : ∀ s, C.guarantee .acquireRead s s ∧ C.guarantee .releaseRead s s)
    (h : wp C body.lift Q s) : wp C (withRead body) Q s := by
  intro e _
  refine ⟨(hlock s).1, (wp_bind _ _).2 ((wp_attempt _).2 ?_)⟩
  exact wp_mono h fun r s' hr e' _ => ⟨(hlock s').2, hr⟩

/-- The same for the write lock. Its note is what the contract may speak of, at the moment the lock is taken. -/
theorem wp_solo_withWrite {n : S.Note} {s : S.State × Γ} (hn : C.guarantee (.acquireWrite n) s s)
    (hlock : ∀ s, C.guarantee .releaseWrite s s) (h : wp C body.lift Q s) :
    wp C (withWrite n body) Q s := by
  intro e _
  refine ⟨hn, (wp_bind _ _).2 ((wp_attempt _).2 ?_)⟩
  exact wp_mono h fun r s' hr e' _ => ⟨hlock s', hr⟩

end Bodies

/-! ## Runs of one client -/

/-- The history after a step. -/
def soloRecord (note : (o : I.Op) → S.Env → Γ → Γ) : Label S Unit → Γ → Γ
  | .op _ _ o e, γ => note o e γ
  | _, γ => γ

/-- What the runs assume of a step: the contract's assumption, only allowed calls, and stops only between
calls. -/
def SoloPermits (C : Contract (solo S note)) (allowed : S.Call → Prop) (γ : Γ) (c : Config S Unit) :
    Label S Unit → Prop
  | .invoke _ _ made => allowed made
  | .op _ _ o e => C.assume (.op o) e (c.st, γ)
  | .restart => c.tasks () = none
  | _ => True

/-- What a step does is within the contract's guarantee. -/
def SoloGuarantee (C : Contract (solo S note)) (γ : Γ) (c c' : Config S Unit) :
    Label S Unit → Prop
  | .op _ _ o e => C.guarantee (.op o) (c.st, γ) (c'.st, note o e γ)
  | .acquireWrite _ _ n => C.guarantee (.acquireWrite n) (c.st, γ) (c.st, γ)
  | _ => True

/-- Between two calls `J` holds; during a call what is left of it establishes `J`. -/
def SoloInv (C : Contract (solo S note)) (J : S.State × Γ → Prop) (γ : Γ) (c : Config S Unit) :
    Prop :=
  match c.tasks () with
  | none => J (c.st, γ)
  | some task => wp C task.prog (fun _ s => J s) (c.st, γ)

/-- What has to be shown of the service. -/
structure SoloLawful (C : Contract (solo S note)) (allowed : S.Call → Prop)
    (J : S.State × Γ → Prop) : Prop where
  code : ∀ call s, allowed call → J s → S.ready () call s.1 = true →
    wp C (S.code call) (fun _ s => J s) s
  restart : ∀ s γ, J (s, γ) → J (S.restart s, γ)
  locks : ∀ cmd s, (∀ o, cmd ≠ .op o) → ∃ e, C.assume cmd e s

/-- The invariant during a call: the rest of its program establishes `J`. -/
theorem SoloInv.advance {c : Config S Unit} {h : Unit} {call : S.Call}
    {p : Program (locked S.Note I) S.Err S.Ans} {s : S.State} (L : Unit → RwLock Unit)
    (hp : wp C p (fun _ s => J s) (s, γ)) : SoloInv C J γ ⟨s, L, c.advance () h call p⟩ := by
  simpa [SoloInv, Config.advance] using hp

/-- What a running call still has to show. -/
theorem SoloInv.wp {h : Unit} {call : S.Call} {p : Program (locked S.Note I) S.Err S.Ans}
    (hc : SoloInv C J γ c) (ht : c.tasks () = some ⟨h, call, p⟩) :
    wp C p (fun _ s => J s) (c.st, γ) := by
  simpa [SoloInv, ht] using hc

/-- Between two calls `J` holds. -/
theorem SoloInv.idle (hc : SoloInv C J γ c) (ht : c.tasks () = none) : J (c.st, γ) := by
  simpa [SoloInv, ht] using hc

/-- **The rule of one client.** -/
theorem solo_step (hL : SoloLawful C allowed J) (hc : SoloInv C J γ c) (hstep : Step c l c')
    (hp : SoloPermits C allowed γ c l) :
    SoloGuarantee C γ c c' l ∧ SoloInv C J (soloRecord note l γ) c' := by
  cases hstep with
  | invoke t h call hfree hready =>
    exact ⟨trivial, .advance _ (hL.code call _ hp (hc.idle hfree) hready)⟩
  | op t h call o k e ht =>
    have := hc.wp ht e hp
    exact ⟨this.1, .advance _ this.2⟩
  | acquireRead t h call k ht =>
    obtain ⟨e, he⟩ := hL.locks .acquireRead (c.st, γ) (by simp)
    exact ⟨trivial, .advance _ (hc.wp ht e he).2⟩
  | releaseRead t h call k ht =>
    obtain ⟨e, he⟩ := hL.locks .releaseRead (c.st, γ) (by simp)
    exact ⟨trivial, .advance _ (hc.wp ht e he).2⟩
  | acquireWrite t h call n k ht =>
    obtain ⟨e, he⟩ := hL.locks (.acquireWrite n) (c.st, γ) (by simp)
    exact ⟨(hc.wp ht e he).1, .advance _ (hc.wp ht e he).2⟩
  | releaseWrite t h call k ht =>
    obtain ⟨e, he⟩ := hL.locks .releaseWrite (c.st, γ) (by simp)
    exact ⟨trivial, .advance _ (hc.wp ht e he).2⟩
  | respond t h call r ht =>
    have hJ : J (c.st, γ) := hc.wp ht
    exact ⟨trivial, show SoloInv C J γ _ by simpa [SoloInv] using hJ⟩
  | restart => exact ⟨trivial, hL.restart _ _ (hc.idle hp)⟩

end Proc
