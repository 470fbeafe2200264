import Mathlib.Data.List.Nodup
import Events.Lib.Interleave

/-!
# A program logic for calls behind one lock

The rule of a readers–writer lock that protects the shared state of a single handle: an
invariant holds whenever nobody writes, the holder of the write lock may break it between its
operations, and nobody else changes the state.

* **`Discipline`** — what the runs assume of the environment, the invariant `inv` of the
  free lock, the property `always` of every moment (it survives a stop of the process between any
  two operations), the `guarantee` of every operation, and a ghost value per call.
* **`Discipline.safe`** — a program follows the discipline: outside the write lock its operations
  change nothing, under the write lock they respect the guarantee, and the lock is released with
  the invariant.
* **`Discipline.sound_step`** — the lock rule: if the code of every call is safe, then every step
  of every interleaving keeps `Discipline.Sound`.
-/

namespace Proc

open Program

/-- How a call holds the lock. -/
inductive Mode where
  | free
  | reading
  | writing
  deriving DecidableEq

/-- When the process may stop: never, only between calls, or at any moment. -/
inductive Restarts where
  | never
  | idle
  | anytime

variable {I : Interface} {T : Type} [DecidableEq T]

/-- A discipline for the calls of the service `S` on its only handle. -/
structure Discipline (S : Service I Unit) (Γ : Type) where
  allow : (o : I.Op) → S.Env → S.State → Prop
  allowWrite : S.Note → S.State → Prop
  restarts : Restarts
  inv : S.State → Prop
  always : S.State → Prop
  /-- What an operation may do, by the ghost value of the call that performs it. -/
  guarantee : Γ → I.Op → S.State → S.State → Prop
  ghost₀ : S.Call → Γ
  ghost : (o : I.Op) → I.Resp o → Γ → Γ

namespace Discipline

variable {S : Service I Unit} {Γ : Type} (D : Discipline S Γ) {α β : Type}

/-- The program follows the discipline from mode `m` with ghost value `g`, and finishes with `Q`. In
modes other than `writing` the state is that of any moment at which the call may run. -/
def safe : Program (locked S.Note I) S.Err α → (Except S.Err α → Mode → Γ → S.State → Prop) →
    Mode → Γ → S.State → Prop
  | .done r, Q, m, g, s => Q r m g s
  | .call .acquireRead k, Q, m, g, s => m = .free ∧ safe (k ()) Q .reading g s
  | .call .releaseRead k, Q, m, g, s => m = .reading ∧ safe (k ()) Q .free g s
  | .call (.acquireWrite n) k, Q, m, g, _ =>
      m = .free ∧ ∀ s, D.inv s → D.allowWrite n s → safe (k ()) Q .writing g s
  | .call .releaseWrite k, Q, m, g, s => m = .writing ∧ D.inv s ∧ safe (k ()) Q .free g s
  | .call (.op o) k, Q, m, g, s =>
      match m with
      | .writing => ∀ e, D.allow o e s →
          D.guarantee g o s (S.step () o e s).2 ∧ D.always (S.step () o e s).2 ∧
            safe (k (S.step () o e s).1) Q .writing (D.ghost o (S.step () o e s).1 g)
              (S.step () o e s).2
      | m => ∀ s e, D.always s → (m = .reading → D.inv s) → D.allow o e s →
          (S.step () o e s).2 = s ∧ D.guarantee g o s s ∧
            safe (k (S.step () o e s).1) Q m (D.ghost o (S.step () o e s).1 g) s

variable {D} {m : Mode} {g : Γ} {s s' : S.State}

/-! ## Rules -/

theorem safe_mono {p : Program (locked S.Note I) S.Err α}
    {Q Q' : Except S.Err α → Mode → Γ → S.State → Prop} (h : D.safe p Q m g s)
    (hQ : ∀ r m g s, Q r m g s → Q' r m g s) : D.safe p Q' m g s := by
  induction p generalizing m g s with
  | done r => exact hQ _ _ _ _ h
  | call o k ih =>
    cases o with
    | acquireRead => exact ⟨h.1, ih _ h.2⟩
    | releaseRead => exact ⟨h.1, ih _ h.2⟩
    | acquireWrite n => exact ⟨h.1, fun s hs hn => ih _ (h.2 s hs hn)⟩
    | releaseWrite => exact ⟨h.1, h.2.1, ih _ h.2.2⟩
    | op o =>
      cases m with
      | writing => exact fun e he => ⟨(h e he).1, (h e he).2.1, ih _ (h e he).2.2⟩
      | free =>
        exact fun s e ha hr he =>
          ⟨(h s e ha hr he).1, (h s e ha hr he).2.1, ih _ (h s e ha hr he).2.2⟩
      | reading =>
        exact fun s e ha hr he =>
          ⟨(h s e ha hr he).1, (h s e ha hr he).2.1, ih _ (h s e ha hr he).2.2⟩

/-- Sequencing. -/
theorem safe_bind {p : Program (locked S.Note I) S.Err α}
    {f : α → Program (locked S.Note I) S.Err β}
    {Q : Except S.Err β → Mode → Γ → S.State → Prop} :
    D.safe (p.bind f) Q m g s ↔
      D.safe p (fun r m g s => match r with
        | .ok a => D.safe (f a) Q m g s
        | .error e => Q (.error e) m g s) m g s := by
  induction p generalizing m g s with
  | done r => cases r <;> exact Iff.rfl
  | call o k ih =>
    cases o with
    | acquireRead => exact and_congr_right fun _ => ih _
    | releaseRead => exact and_congr_right fun _ => ih _
    | acquireWrite n =>
      exact and_congr_right fun _ => forall_congr' fun s => imp_congr_right fun _ =>
        imp_congr_right fun _ => ih _
    | releaseWrite => exact and_congr_right fun _ => and_congr_right fun _ => ih _
    | op o =>
      cases m with
      | writing =>
        exact forall_congr' fun e => imp_congr_right fun _ => and_congr_right fun _ =>
          and_congr_right fun _ => ih _
      | free =>
        exact forall_congr' fun s => forall_congr' fun e => imp_congr_right fun _ =>
          imp_congr_right fun _ => imp_congr_right fun _ => and_congr_right fun _ =>
            and_congr_right fun _ => ih _
      | reading =>
        exact forall_congr' fun s => forall_congr' fun e => imp_congr_right fun _ =>
          imp_congr_right fun _ => imp_congr_right fun _ => and_congr_right fun _ =>
            and_congr_right fun _ => ih _

theorem safe_attempt {p : Program (locked S.Note I) S.Err α}
    {Q : Except S.Err (Except S.Err α) → Mode → Γ → S.State → Prop} :
    D.safe p.attempt Q m g s ↔ D.safe p (fun r m g s => Q (.ok r) m g s) m g s := by
  induction p generalizing m g s with
  | done r => exact Iff.rfl
  | call o k ih =>
    cases o with
    | acquireRead => exact and_congr_right fun _ => ih _
    | releaseRead => exact and_congr_right fun _ => ih _
    | acquireWrite n =>
      exact and_congr_right fun _ => forall_congr' fun s => imp_congr_right fun _ =>
        imp_congr_right fun _ => ih _
    | releaseWrite => exact and_congr_right fun _ => and_congr_right fun _ => ih _
    | op o =>
      cases m with
      | writing =>
        exact forall_congr' fun e => imp_congr_right fun _ => and_congr_right fun _ =>
          and_congr_right fun _ => ih _
      | free =>
        exact forall_congr' fun s => forall_congr' fun e => imp_congr_right fun _ =>
          imp_congr_right fun _ => imp_congr_right fun _ => and_congr_right fun _ =>
            and_congr_right fun _ => ih _
      | reading =>
        exact forall_congr' fun s => forall_congr' fun e => imp_congr_right fun _ =>
          imp_congr_right fun _ => imp_congr_right fun _ => and_congr_right fun _ =>
            and_congr_right fun _ => ih _

/-- Outside the write lock the state does not matter. -/
theorem safe_irrel {p : Program (locked S.Note I) S.Err α}
    {Q : Except S.Err α → Mode → Γ → S.State → Prop}
    (hQ : ∀ r m g s s', m ≠ .writing → Q r m g s → Q r m g s') (hm : m ≠ .writing)
    (h : D.safe p Q m g s) : D.safe p Q m g s' := by
  induction p generalizing m g s s' with
  | done r => exact hQ _ _ _ _ _ hm h
  | call o k ih =>
    cases o with
    | acquireRead => exact ⟨h.1, ih _ (by decide) h.2⟩
    | releaseRead => exact ⟨h.1, ih _ (by decide) h.2⟩
    | acquireWrite n => exact h
    | releaseWrite => exact absurd h.1 hm
    | op o =>
      cases m with
      | writing => exact absurd rfl hm
      | free => exact h
      | reading => exact h

/-! ## Bodies without lock commands -/

/-- The machine of the service's only handle. -/
abbrev machine (S : Service I Unit) : Machine I := ⟨S.State, S.Env, S.step ()⟩

variable (D) in
/-- What a body under the write lock may assume and has to guarantee. -/
def contract (g : Γ) : Contract (machine S) where
  assume := D.allow
  guarantee o s s' := D.guarantee g o s s' ∧ D.always s'

variable (D) in
/-- The operation leaves the ghost value alone. -/
def Quiet (o : I.Op) : Prop := ∀ x g, D.ghost o x g = g

variable (D) in
/-- The operation leaves the ghost value and the state alone. -/
def Passive (o : I.Op) : Prop :=
  D.Quiet o ∧ ∀ e s, D.always s → (S.step () o e s).2 = s ∧ ∀ g, D.guarantee g o s s

/-- A body under the write lock is verified by its weakest precondition. -/
theorem safe_lift_writing {p : Program I S.Err α} {R : Except S.Err α → S.State → Prop}
    {Q : Except S.Err α → Mode → Γ → S.State → Prop} (hq : p.All D.Quiet)
    (hp : wp (D.contract g) p R s) (hQ : ∀ r s, R r s → Q r .writing g s) :
    D.safe p.lift Q .writing g s := by
  induction p generalizing s with
  | done r => exact hQ r s hp
  | call o k ih =>
    intro e he
    have h := hp e he
    rw [hq.1]
    exact ⟨h.1.1, h.1.2, ih _ (hq.2 _) h.2⟩

/-- A body whose operations only look at the state is safe in every other mode, and its result is
one that it yields on the answers there are. -/
theorem safe_lift_passive {p : Program I S.Err α} {ok : (o : I.Op) → I.Resp o → Prop}
    {R : Except S.Err α → Prop} {Q : Except S.Err α → Mode → Γ → S.State → Prop}
    (hm : m ≠ .writing) (hp : p.All D.Passive) (hy : p.Yields ok R)
    (hok : ∀ o e s, D.always s → D.allow o e s → ok o (S.step () o e s).1)
    (hQ : ∀ r s, R r → Q r m g s) : D.safe p.lift Q m g s := by
  induction p generalizing s with
  | done r => exact hQ r s hy
  | call o k ih =>
    have hop : ∀ s e, D.always s → D.allow o e s → (S.step () o e s).2 = s ∧ D.guarantee g o s s ∧
        D.safe (k (S.step () o e s).1).lift Q m (D.ghost o (S.step () o e s).1 g) s :=
      fun s e ha he => ⟨(hp.1.2 e s ha).1, (hp.1.2 e s ha).2 g, by
        rw [hp.1.1]
        exact ih _ (hp.2 _) (hy _ (hok o e s ha he))⟩
    cases m with
    | writing => exact absurd rfl hm
    | free => exact fun s e ha _ he => hop s e ha he
    | reading => exact fun s e ha _ he => hop s e ha he

/-- The rule of a body under the write lock. -/
theorem safe_withWrite {n : S.Note} {body : Program I S.Err α}
    {Q : Except S.Err α → Mode → Γ → S.State → Prop}
    (h : ∀ s, D.inv s → D.allowWrite n s → D.safe body.lift
      (fun r m g s => m = .writing ∧ D.inv s ∧ Q r .free g s) .writing g s) :
    D.safe (Program.withWrite n body) Q .free g s := by
  refine ⟨rfl, fun s hs hn => ?_⟩
  rw [safe_bind, safe_attempt]
  exact safe_mono (h s hs hn) fun r m g s hr => hr

/-- The rule of a body under the read lock. -/
theorem safe_withRead {body : Program I S.Err α}
    {Q : Except S.Err α → Mode → Γ → S.State → Prop}
    (h : D.safe body.lift
      (fun r m g s => m = .reading ∧ Q r .free g s) .reading g s) :
    D.safe (Program.withRead body) Q .free g s := by
  refine ⟨rfl, ?_⟩
  rw [safe_bind, safe_attempt]
  exact safe_mono h fun r m g s hr => hr

/-! ## The lock rule -/

end Discipline

/-- How the call `t` holds the lock. -/
def RwLock.mode (l : RwLock T) (t : T) : Mode :=
  if l.writer = some t then .writing else if t ∈ l.readers then .reading else .free

@[simp] theorem RwLock.mode_eq_writing {l : RwLock T} {t : T} :
    l.mode t = .writing ↔ l.writer = some t := by
  unfold RwLock.mode; split <;> [simp_all; (split <;> simp_all)]

@[simp] theorem RwLock.mode_eq_free {l : RwLock T} {t : T} :
    l.mode t = .free ↔ l.writer ≠ some t ∧ t ∉ l.readers := by
  unfold RwLock.mode; split <;> [simp_all; (split <;> simp_all)]

theorem RwLock.mode_eq_reading {l : RwLock T} {t : T} :
    l.mode t = .reading ↔ l.writer ≠ some t ∧ t ∈ l.readers := by
  unfold RwLock.mode; split <;> [simp_all; (split <;> simp_all)]

namespace Discipline

variable {S : Service I Unit} {Γ : Type} (D : Discipline S Γ)
  (Post : S.Call → Except S.Err S.Ans → Γ → Prop)

/-- What the runs assume of a step. -/
def Permits (c : Config S T) : Label S T → Prop
  | .op _ _ o e => D.allow o e c.st
  | .acquireWrite _ _ n => D.allowWrite n c.st
  | .restart =>
    match D.restarts with
    | .never => False
    | .idle => ∀ t, c.tasks t = none
    | .anytime => True
  | _ => True

/-- The ghost values after a step. -/
def track (c : Config S T) (g : T → Γ) : Label S T → T → Γ
  | .invoke t _ made => Function.update g t (D.ghost₀ made)
  | .op t _ o e => Function.update g t (D.ghost o (S.step () o e c.st).1 (g t))
  | _ => g

/-- What has to be shown of the service: its calls are safe and it may stop where it does. -/
structure Lawful : Prop where
  always_of_inv : ∀ s, D.inv s → D.always s
  code : ∀ call s, D.always s → S.ready () call s = true →
    D.safe (S.code call) (fun r m g _ => m = .free ∧ Post call r g) .free (D.ghost₀ call) s
  restart_idle : D.restarts = .idle → ∀ s, D.inv s → D.inv (S.restart s)
  restart_anytime : D.restarts = .anytime → ∀ s, D.always s → D.inv (S.restart s)

/-- The configuration follows the discipline. -/
structure Sound (c : Config S T) (g : T → Γ) : Prop where
  always : D.always c.st
  free : (c.lock ()).writer = none → D.inv c.st
  exclusive : ∀ t, (c.lock ()).writer = some t → (c.lock ()).readers = []
  nodup : (c.lock ()).readers.Nodup
  writer_task : ∀ t, (c.lock ()).writer = some t → c.tasks t ≠ none
  reader_task : ∀ t ∈ (c.lock ()).readers, c.tasks t ≠ none
  safe : ∀ t task, c.tasks t = some task →
    D.safe task.prog (fun r m g _ => m = .free ∧ Post task.call r g) ((c.lock ()).mode t) (g t) c.st

variable {D Post} {c c' : Config S T} {g : T → Γ} {l : Label S T}

theorem sound_idle (hL : D.Lawful Post) {s : S.State} (hs : D.inv s) (g : T → Γ) :
    D.Sound Post (Config.idle T s) g where
  always := hL.always_of_inv s hs
  free _ := hs
  exclusive t h := by cases h
  nodup := List.nodup_nil
  writer_task t h := by cases h
  reader_task t h := by cases h
  safe t task h := by cases h

namespace Sound

variable (hs : D.Sound Post c g)
include hs

/-- Where one call writes, every other call is free. -/
theorem mode_of_writer {t u : T} (ht : (c.lock ()).writer = some t) (hu : u ≠ t) :
    (c.lock ()).mode u = .free := by
  simp [ht, hs.exclusive t ht, hu.symm]

/-- The state may change behind a call that does not write. -/
theorem safe_of_ne_writing {t : T} {task : Task S} (ht : c.tasks t = some task)
    (hm : (c.lock ()).mode t ≠ .writing) (s : S.State) :
    D.safe task.prog (fun r m g _ => m = .free ∧ Post task.call r g) ((c.lock ()).mode t) (g t) s :=
  safe_irrel (fun _ _ _ _ _ _ h => h) hm (hs.safe t task ht)

/-- What an answer satisfies. -/
theorem respond {t : T} {h : Unit} {call : S.Call} {r : Except S.Err S.Ans}
    (hstep : Step c (.respond t h call r) c') : Post call r (g t) := by
  cases hstep with
  | respond t h call r ht hr => exact (hs.safe t _ ht).2

/-- Every operation respects the guarantee, and only the holder of the write lock changes the
state. -/
theorem guarantee {t : T} {h : Unit} {o : I.Op} {e : S.Env} (hstep : Step c (.op t h o e) c')
    (hp : D.Permits c (.op t h o e)) :
    D.guarantee (g t) o c.st c'.st ∧ ((c.lock ()).writer = some t ∨ c'.st = c.st) := by
  cases hstep with
  | op t h call o k e ht =>
    have hsafe := hs.safe t _ ht
    generalize hm : (c.lock ()).mode t = m at hsafe
    cases m with
    | writing => exact ⟨(hsafe e hp).1, .inl (RwLock.mode_eq_writing.1 hm)⟩
    | free =>
      obtain ⟨hst, hG, -⟩ := hsafe c.st e hs.always (by simp) hp
      exact ⟨by rw [hst]; exact hG, .inr hst⟩
    | reading =>
      have hw := RwLock.mode_eq_reading.1 hm
      have hfree : (c.lock ()).writer = none := by
        by_contra hne
        obtain ⟨u, hu⟩ := Option.ne_none_iff_exists'.1 hne
        simp [hs.exclusive u hu] at hw
      obtain ⟨hst, hG, -⟩ := hsafe c.st e hs.always (fun _ => hs.free hfree) hp
      exact ⟨by rw [hst]; exact hG, .inr hst⟩

/-- A call that goes on where it stands, the lock and the state staying as they are. -/
theorem advance {t : T} {task : Task S} {p : Program (locked S.Note I) S.Err S.Ans} {γ : Γ}
    (ht : c.tasks t = some task)
    (hp : D.safe p (fun r m g _ => m = .free ∧ Post task.call r g) ((c.lock ()).mode t) γ c.st) :
    D.Sound Post { c with tasks := c.advance t task.handle task.call p }
      (Function.update g t γ) where
  always := hs.always
  free := hs.free
  exclusive := hs.exclusive
  nodup := hs.nodup
  writer_task u hu := by
    by_cases hut : u = t
    · simp [Config.advance, hut]
    · simpa [Config.advance, hut] using hs.writer_task u hu
  reader_task u hu := by
    by_cases hut : u = t
    · simp [Config.advance, hut]
    · simpa [Config.advance, hut] using hs.reader_task u hu
  safe u task' hu := by
    by_cases hut : u = t
    · subst hut
      simp only [Config.advance, Function.update_self, Option.some.injEq] at hu
      subst hu
      simpa using hp
    · simp only [Config.advance, Function.update_of_ne hut] at hu
      simpa [Function.update_of_ne hut] using hs.safe u task' hu

/-- An operation of the holder of the write lock. -/
theorem write {t : T} {task : Task S} {p : Program (locked S.Note I) S.Err S.Ans} {γ : Γ}
    {s : S.State} (ht : c.tasks t = some task) (hw : (c.lock ()).writer = some t)
    (ha : D.always s)
    (hp : D.safe p (fun r m g _ => m = .free ∧ Post task.call r g) .writing γ s) :
    D.Sound Post { c with st := s, tasks := c.advance t task.handle task.call p }
      (Function.update g t γ) where
  always := ha
  free h := by simp [hw] at h
  exclusive := hs.exclusive
  nodup := hs.nodup
  writer_task u hu := by
    obtain rfl : t = u := by simpa [hw] using hu
    simp [Config.advance]
  reader_task u hu := by simp [hs.exclusive t hw] at hu
  safe u task' hu := by
    by_cases hut : u = t
    · subst hut
      simp only [Config.advance, Function.update_self, Option.some.injEq] at hu
      subst hu
      rw [RwLock.mode_eq_writing.2 hw]
      simpa using hp
    · simp only [Config.advance, Function.update_of_ne hut] at hu
      have hm := hs.mode_of_writer hw hut
      simpa [Function.update_of_ne hut] using hs.safe_of_ne_writing hu (by simp [hm]) s

/-- A call that changes its hold on the lock. -/
theorem relock {t : T} {task : Task S} {p : Program (locked S.Note I) S.Err S.Ans} {L : RwLock T}
    (ht : c.tasks t = some task)
    (hfree : L.writer = none → D.inv c.st)
    (hex : ∀ u, L.writer = some u → L.readers = []) (hnd : L.readers.Nodup)
    (hothers : ∀ u, u ≠ t → L.mode u = (c.lock ()).mode u)
    (hp : D.safe p (fun r m g _ => m = .free ∧ Post task.call r g) (L.mode t) (g t) c.st) :
    D.Sound Post
      { c with
        lock := Function.update c.lock () L
        tasks := c.advance t task.handle task.call p } g where
  always := hs.always
  free h := hfree (by simpa using h)
  exclusive u hu := by simpa using hex u (by simpa using hu)
  nodup := by simpa using hnd
  writer_task u hu := by
    -- the task that took or gave back the lock; of the others the mode is the same
    by_cases hut : u = t
    · simp [Config.advance, hut]
    · have hm := hothers u hut
      rw [RwLock.mode_eq_writing.2 (by simpa using hu)] at hm
      simpa [Config.advance, hut] using hs.writer_task u (RwLock.mode_eq_writing.1 hm.symm)
  reader_task u hu := by
    by_cases hut : u = t
    · simp [Config.advance, hut]
    · have hu' : u ∈ L.readers := by simpa using hu
      have hw : L.writer ≠ some u := fun h => by simp [hex u h] at hu'
      have hm := hothers u hut
      rw [RwLock.mode_eq_reading.2 ⟨hw, hu'⟩] at hm
      simpa [Config.advance, hut] using hs.reader_task u (RwLock.mode_eq_reading.1 hm.symm).2
  safe u task' hu := by
    by_cases hut : u = t
    · subst hut
      simp only [Config.advance, Function.update_self, Option.some.injEq] at hu
      subst hu
      simpa using hp
    · simp only [Config.advance, Function.update_of_ne hut] at hu
      simpa [hothers u hut] using hs.safe u task' hu

end Sound

/-- **The lock rule**: every permitted step of every interleaving keeps the discipline. -/
theorem sound_step (hL : D.Lawful Post) (hs : D.Sound Post c g) (hstep : Step c l c')
    (hp : D.Permits c l) : D.Sound Post c' (D.track c g l) := by
  cases hstep with
  | invoke t h call hfree hready =>
    have hw : (c.lock ()).writer ≠ some t := fun h => hs.writer_task t h hfree
    have hr : t ∉ (c.lock ()).readers := fun h => hs.reader_task t h hfree
    refine { always := hs.always, free := hs.free, exclusive := hs.exclusive, nodup := hs.nodup,
             writer_task := ?_, reader_task := ?_, safe := ?_ }
    · intro u hu
      by_cases hut : u = t
      · simp [Config.advance, hut]
      · simpa [Config.advance, hut] using hs.writer_task u hu
    · intro u hu
      by_cases hut : u = t
      · simp [Config.advance, hut]
      · simpa [Config.advance, hut] using hs.reader_task u hu
    · intro u task hu
      by_cases hut : u = t
      · subst hut
        simp only [Config.advance, Function.update_self, Option.some.injEq] at hu
        subst hu
        rw [RwLock.mode_eq_free.2 ⟨hw, hr⟩]
        simpa [track] using hL.code call c.st hs.always hready
      · simp only [Config.advance, Function.update_of_ne hut] at hu
        simpa [track, Function.update_of_ne hut] using hs.safe u task hu
  | op t h call o k e ht =>
    -- what the call does next is safe in its mode; the store changes only where it holds the write lock
    have hsafe := hs.safe t _ ht
    by_cases hw : (c.lock ()).writer = some t
    · rw [RwLock.mode_eq_writing.2 hw] at hsafe
      exact hs.write ht hw (hsafe e hp).2.1 (hsafe e hp).2.2
    · have hst : (S.step () o e c.st).2 = c.st :=
        (hs.guarantee (.op t h call o k e ht) hp).2.resolve_left hw
      -- a reader keeps writers out, so the invariant of the free lock holds for it
      have hrd : (c.lock ()).mode t = .reading → D.inv c.st := fun hm => by
        refine hs.free (by_contra fun hne => ?_)
        obtain ⟨u, hu⟩ := Option.ne_none_iff_exists'.1 hne
        have := RwLock.mode_eq_reading.1 hm
        simp [hs.exclusive u hu] at this
      have hnext : D.safe (k (S.step () o e c.st).1)
          (fun r m g _ => m = .free ∧ Post call r g) ((c.lock ()).mode t)
          (D.ghost o (S.step () o e c.st).1 (g t)) c.st := by
        generalize hm : (c.lock ()).mode t = m at hsafe hrd
        cases m with
        | writing => exact absurd (RwLock.mode_eq_writing.1 hm) hw
        | free => exact (hsafe c.st e hs.always (by simp) hp).2.2
        | reading => exact (hsafe c.st e hs.always (fun _ => hrd rfl) hp).2.2
      have := hs.advance ht hnext
      rw [hst]
      exact this
  | acquireRead t h call k ht hw =>
    have hsafe := hs.safe t _ ht
    have hmode := RwLock.mode_eq_free.1 hsafe.1
    refine hs.relock ht (fun _ => hs.free hw) (by simp) ?_ ?_ ?_
    · exact List.nodup_cons.2 ⟨hmode.2, hs.nodup⟩
    · intro u hut
      simp [RwLock.mode, hw, hut]
    · rw [RwLock.mode_eq_reading.2 (by simp)]
      exact hsafe.2
  | releaseRead t h call k ht =>
    have hsafe := hs.safe t _ ht
    have hmode := RwLock.mode_eq_reading.1 hsafe.1
    have hw : (c.lock ()).writer = none := by
      by_contra hne
      obtain ⟨u, hu⟩ := Option.ne_none_iff_exists'.1 hne
      simp [hs.exclusive u hu] at hmode
    refine hs.relock ht (fun _ => hs.free hw) (by simp [hw]) (hs.nodup.erase t) ?_ ?_
    · intro u hut
      simp [RwLock.mode, hw, List.mem_erase_of_ne hut]
    · rw [RwLock.mode_eq_free.2 (by simp [hw, hs.nodup.mem_erase_iff])]
      exact hsafe.2
  | acquireWrite t h call note k ht hw hr =>
    have hsafe := hs.safe t _ ht
    refine hs.relock ht (by simp) (by simp) (by simp) ?_ ?_
    · intro u hut
      simp [RwLock.mode, hw, hr, hut.symm]
    · rw [RwLock.mode_eq_writing.2 rfl]
      exact hsafe.2 c.st (hs.free hw) hp
  | releaseWrite t h call k ht =>
    have hsafe := hs.safe t _ ht
    have hw := RwLock.mode_eq_writing.1 hsafe.1
    have hr := hs.exclusive t hw
    refine hs.relock ht (fun _ => hsafe.2.1) (by simp) (by simp [hr]) ?_ ?_
    · intro u hut
      simp [RwLock.mode, hw, hr, hut.symm]
    · rw [RwLock.mode_eq_free.2 (by simp [hr])]
      exact hsafe.2.2
  | respond t h call r ht hr =>
    have hmode := RwLock.mode_eq_free.1 (hs.safe t _ ht).1
    refine { always := hs.always, free := hs.free, exclusive := hs.exclusive, nodup := hs.nodup,
             writer_task := ?_, reader_task := ?_, safe := ?_ }
    · intro u hu
      have hut : u ≠ t := fun h => hmode.1 (h ▸ hu)
      simpa [hut] using hs.writer_task u hu
    · intro u hu
      have hut : u ≠ t := fun h => hmode.2 (h ▸ hu)
      simpa [hut] using hs.reader_task u hu
    · intro u task hu
      by_cases hut : u = t
      · simp [hut] at hu
      · exact hs.safe u task (by simpa [hut] using hu)
  | restart =>
    -- a restart drops all calls: what it leaves has to be sound with nobody at work
    have hinv : D.inv (S.restart c.st) := by
      simp only [Permits] at hp
      split at hp
      · exact hp.elim
      · rename_i hr
        refine hL.restart_idle hr _ (hs.free (by_contra fun hne => ?_))
        obtain ⟨u, hu⟩ := Option.ne_none_iff_exists'.1 hne
        exact hs.writer_task u hu (hp u)
      · rename_i hr
        exact hL.restart_anytime hr _ hs.always
    exact sound_idle hL hinv _

/-- The ghost values after a run. -/
def trackAll (D : Discipline S Γ) (c : Config S T) (g : T → Γ) :
    List (Label S T × Config S T) → T → Γ
  | [] => g
  | (l, c') :: tr => trackAll D c' (D.track c g l) tr

/-- **Runs follow the discipline.** -/
theorem sound_run {A : Config S T → Label S T → Prop} {tr : List (Label S T × Config S T)}
    (hL : D.Lawful Post) (hA : ∀ c l, A c l → D.Permits c l) (hs : D.Sound Post c g)
    (hrun : IsRun A c tr) : D.Sound Post (lastOf c tr) (D.trackAll c g tr) := by
  induction tr generalizing c g with
  | nil => exact hs
  | cons x tr ih => exact ih (sound_step hL hs hrun.1 (hA _ _ hrun.2.1)) hrun.2.2

end Discipline
end Proc
