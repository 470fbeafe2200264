import Mathlib.Logic.Function.Basic
import Mathlib.Data.List.Basic
import Events.Lib.Program

/-!
# Interleaved calls behind readers–writer locks

Clients call programs of a *service* on *handles*. The calls run concurrently: a step of the
system is one operation, one lock command, the arrival or the answer of one call. Every handle
has a readers–writer lock; the handles share one state.

* **`Cmd`**, **`locked`** — the operations of an interface with the four lock commands added;
  `Program.withRead` and `Program.withWrite` bracket a body the way a lock guard does, whether the
  body fails or not.
* **`Service`**, **`Config`**, **`Step`** — the service, its configurations and their steps.
* **`IsRun`** — finite runs, as the list of labels with the configuration each label leads to,
  under an assumption on every step; `IsRunWith` carries a history along.
* **`turn`**, **`play`** — the step of a chosen call and the run of a chosen schedule, computed
  (`turn_sound`, `play_sound`), so that runs can be evaluated.
-/

namespace Proc

/-- An operation, or a command on the lock of the handle. A write acquisition carries a note that
says what the lock is taken for. -/
inductive Cmd (N : Type) (I : Interface) : Type where
  | acquireRead
  | releaseRead
  | acquireWrite (note : N)
  | releaseWrite
  | op (o : I.Op)

@[reducible] def Cmd.Resp {N : Type} {I : Interface} : Cmd N I → Type
  | .acquireRead => Unit
  | .releaseRead => Unit
  | .acquireWrite _ => Unit
  | .releaseWrite => Unit
  | .op o => I.Resp o

/-- The interface `I` with the lock commands. -/
abbrev locked (N : Type) (I : Interface) : Interface := ⟨Cmd N I, Cmd.Resp⟩

namespace Program

variable {N : Type} {I : Interface} {ε α : Type}

/-- A program that uses no lock, as a program over the locked interface. -/
def lift : Program I ε α → Program (locked N I) ε α
  | .done r => .done r
  | .call o k => .call (.op o) fun x => (k x).lift

theorem lift_bind (p : Program I ε α) (f : α → Program I ε β) :
    (p.bind f).lift (N := N) = p.lift.bind fun a => (f a).lift := by
  induction p with
  | done r => cases r <;> rfl
  | call o k ih =>
    rw [call_bind, lift, lift, call_bind]
    congr 1
    exact funext ih

/-- Run `body` under the read lock. -/
def withRead (body : Program I ε α) : Program (locked N I) ε α :=
  .call .acquireRead fun _ => body.lift.attempt.bind fun r => .call .releaseRead fun _ => .done r

/-- Run `body` under the write lock. -/
def withWrite (note : N) (body : Program I ε α) : Program (locked N I) ε α :=
  .call (.acquireWrite note) fun _ =>
    body.lift.attempt.bind fun r => .call .releaseWrite fun _ => .done r

end Program

/-- What clients may call, on which handles. -/
structure Service (I : Interface) (H : Type) where
  Note : Type
  Err : Type
  /-- The calls, and the type of their answers. -/
  Call : Type
  Ans : Type
  State : Type
  Env : Type
  step : H → (o : I.Op) → Env → State → I.Resp o × State
  code : Call → Program (locked Note I) Err Ans
  /-- Whether a call may be made on a handle. -/
  ready : H → Call → State → Bool
  /-- Whether a program that finished with this result answers its caller. -/
  returns : Except Err Ans → Bool
  /-- What is left of the state when the process stops. -/
  restart : State → State

/-- A readers–writer lock: the call that holds it for writing and those that hold it for reading. -/
structure RwLock (T : Type) where
  writer : Option T := none
  readers : List T := []

section System

variable {I : Interface} {H : Type}

/-- A call in progress: its handle, what was called and what is left to run. -/
structure Task (S : Service I H) where
  handle : H
  call : S.Call
  prog : Program (locked S.Note I) S.Err S.Ans

structure Config (S : Service I H) (T : Type) where
  st : S.State
  lock : H → RwLock T
  tasks : T → Option (Task S)

/-- What one step does, and for which call. -/
inductive Label (S : Service I H) (T : Type) where
  | invoke (t : T) (h : H) (call : S.Call)
  | op (t : T) (h : H) (o : I.Op) (e : S.Env)
  | acquireRead (t : T) (h : H)
  | releaseRead (t : T) (h : H)
  | acquireWrite (t : T) (h : H) (note : S.Note)
  | releaseWrite (t : T) (h : H)
  | respond (t : T) (h : H) (call : S.Call) (r : Except S.Err S.Ans)
  | restart

variable {S : Service I H} {T : Type} [DecidableEq T] [DecidableEq H]

/-- The configuration with no call in progress. -/
def Config.idle (T : Type) (s : S.State) : Config S T :=
  { st := s, lock := fun _ => {}, tasks := fun _ => none }

/-- The call `t` goes on with `p`. -/
def Config.advance (c : Config S T) (t : T) (h : H) (call : S.Call)
    (p : Program (locked S.Note I) S.Err S.Ans) : T → Option (Task S) :=
  Function.update c.tasks t (some ⟨h, call, p⟩)

/-- The steps of the system. -/
inductive Step : Config S T → Label S T → Config S T → Prop where
  | invoke {c : Config S T} (t : T) (h : H) (call : S.Call) (hfree : c.tasks t = none)
      (hready : S.ready h call c.st = true) :
      Step c (.invoke t h call) { c with tasks := c.advance t h call (S.code call) }
  | op {c : Config S T} (t : T) (h : H) (call : S.Call) (o : I.Op)
      (k : I.Resp o → Program (locked S.Note I) S.Err S.Ans) (e : S.Env)
      (ht : c.tasks t = some ⟨h, call, .call (.op o) k⟩) :
      Step c (.op t h o e)
        { c with
          st := (S.step h o e c.st).2
          tasks := c.advance t h call (k (S.step h o e c.st).1) }
  | acquireRead {c : Config S T} (t : T) (h : H) (call : S.Call)
      (k : Unit → Program (locked S.Note I) S.Err S.Ans)
      (ht : c.tasks t = some ⟨h, call, .call .acquireRead k⟩)
      (hw : (c.lock h).writer = none) :
      Step c (.acquireRead t h)
        { c with
          lock := Function.update c.lock h ⟨none, t :: (c.lock h).readers⟩
          tasks := c.advance t h call (k ()) }
  | releaseRead {c : Config S T} (t : T) (h : H) (call : S.Call)
      (k : Unit → Program (locked S.Note I) S.Err S.Ans)
      (ht : c.tasks t = some ⟨h, call, .call .releaseRead k⟩) :
      Step c (.releaseRead t h)
        { c with
          lock := Function.update c.lock h ⟨(c.lock h).writer, (c.lock h).readers.erase t⟩
          tasks := c.advance t h call (k ()) }
  | acquireWrite {c : Config S T} (t : T) (h : H) (call : S.Call) (note : S.Note)
      (k : Unit → Program (locked S.Note I) S.Err S.Ans)
      (ht : c.tasks t = some ⟨h, call, .call (.acquireWrite note) k⟩)
      (hw : (c.lock h).writer = none) (hr : (c.lock h).readers = []) :
      Step c (.acquireWrite t h note)
        { c with
          lock := Function.update c.lock h ⟨some t, []⟩
          tasks := c.advance t h call (k ()) }
  | releaseWrite {c : Config S T} (t : T) (h : H) (call : S.Call)
      (k : Unit → Program (locked S.Note I) S.Err S.Ans)
      (ht : c.tasks t = some ⟨h, call, .call .releaseWrite k⟩) :
      Step c (.releaseWrite t h)
        { c with
          lock := Function.update c.lock h ⟨none, (c.lock h).readers⟩
          tasks := c.advance t h call (k ()) }
  | respond {c : Config S T} (t : T) (h : H) (call : S.Call) (r : Except S.Err S.Ans)
      (ht : c.tasks t = some ⟨h, call, .done r⟩) (hr : S.returns r = true) :
      Step c (.respond t h call r) { c with tasks := Function.update c.tasks t none }
  | restart {c : Config S T} : Step c .restart (Config.idle T (S.restart c.st))

/-- A call that goes on after a step has just been made, or was going on before. -/
theorem Step.task_cases {c c' : Config S T} {l : Label S T} (hstep : Step c l c') {t : T}
    {task : Task S} (ht : c'.tasks t = some task) : l = .invoke t task.handle task.call ∨
      ∃ task', c.tasks t = some task' ∧ task'.call = task.call := by
  have hadvance : ∀ {u : T} {h : H} {call : S.Call} {p q : Program (locked S.Note I) S.Err S.Ans},
      c.tasks u = some ⟨h, call, p⟩ → c.advance u h call q t = some task →
      ∃ task', c.tasks t = some task' ∧ task'.call = task.call := by
    intro u h call p q hu hq
    by_cases hut : t = u
    · subst hut
      simp only [Config.advance, Function.update_self, Option.some.injEq] at hq
      exact ⟨_, hu, by rw [← hq]⟩
    · simp only [Config.advance, Function.update_of_ne hut] at hq
      exact ⟨task, hq, rfl⟩
  cases hstep with
  | invoke u h call hfree hready =>
    by_cases hut : t = u
    · subst hut
      simp only [Config.advance, Function.update_self, Option.some.injEq] at ht
      exact .inl (by rw [← ht])
    · simp only [Config.advance, Function.update_of_ne hut] at ht
      exact .inr ⟨task, ht, rfl⟩
  | op u h call o k e hu => exact .inr (hadvance hu ht)
  | acquireRead u h call k hu hw => exact .inr (hadvance hu ht)
  | releaseRead u h call k hu => exact .inr (hadvance hu ht)
  | acquireWrite u h call n k hu hw hr => exact .inr (hadvance hu ht)
  | releaseWrite u h call k hu => exact .inr (hadvance hu ht)
  | respond u h call r hu hr =>
    by_cases hut : t = u
    · subst hut
      simp at ht
    · simp only [Function.update_of_ne hut] at ht
      exact .inr ⟨task, ht, rfl⟩
  | restart => cases ht

/-! ## Runs -/

/-- `tr` is a run from `c` all of whose steps satisfy `A` where they are taken. -/
def IsRun (A : Config S T → Label S T → Prop) : Config S T → List (Label S T × Config S T) → Prop
  | _, [] => True
  | c, (l, c') :: tr => Step c l c' ∧ A c l ∧ IsRun A c' tr

/-- The configuration a run ends in. -/
def lastOf (c : Config S T) : List (Label S T × Config S T) → Config S T
  | [] => c
  | (_, c') :: tr => lastOf c' tr

/-- The configurations of a run. -/
def statesOf (c : Config S T) (tr : List (Label S T × Config S T)) : List (Config S T) :=
  c :: tr.map Prod.snd

variable {A B : Config S T → Label S T → Prop} {c c' : Config S T}
  {tr : List (Label S T × Config S T)}

theorem IsRun.mono (h : IsRun A c tr) (hAB : ∀ c l, A c l → B c l) : IsRun B c tr := by
  induction tr generalizing c with
  | nil => trivial
  | cons x tr ih => exact ⟨h.1, hAB _ _ h.2.1, ih h.2.2⟩

/-- A property that every allowed step keeps holds in every configuration of a run. -/
theorem IsRun.invariant {P : Config S T → Prop} (h : IsRun A c tr) (hc : P c)
    (hstep : ∀ c l c', P c → Step c l c' → A c l → P c') : ∀ x ∈ statesOf c tr, P x := by
  induction tr generalizing c with
  | nil => simpa [statesOf] using hc
  | cons x tr ih =>
    obtain ⟨l, c'⟩ := x
    intro y hy
    rcases List.mem_cons.1 hy with rfl | hy
    · exact hc
    · exact ih h.2.2 (hstep _ _ _ hc h.1 h.2.1) y hy

/-- Every initial part of a run is a run. -/
theorem IsRun.of_append {tr' : List (Label S T × Config S T)} (h : IsRun A c (tr ++ tr')) :
    IsRun A c tr ∧ IsRun A (lastOf c tr) tr' := by
  induction tr generalizing c with
  | nil => exact ⟨trivial, h⟩
  | cons x tr ih => exact ⟨⟨h.1, h.2.1, (ih h.2.2).1⟩, (ih h.2.2).2⟩

omit [DecidableEq T] [DecidableEq H] in
@[simp] theorem lastOf_append (c : Config S T) (tr tr' : List (Label S T × Config S T)) :
    lastOf c (tr ++ tr') = lastOf (lastOf c tr) tr' := by
  induction tr generalizing c with
  | nil => rfl
  | cons x tr ih => exact ih x.2

omit [DecidableEq T] [DecidableEq H] in
theorem lastOf_mem_statesOf (c : Config S T) (tr : List (Label S T × Config S T)) :
    lastOf c tr ∈ statesOf c tr := by
  induction tr generalizing c with
  | nil => simp [lastOf, statesOf]
  | cons x tr ih => exact List.mem_cons_of_mem _ (ih x.2)

/-- An invariant holds in the last configuration of a run. -/
theorem IsRun.invariant_last {P : Config S T → Prop} (h : IsRun A c tr) (hc : P c)
    (hstep : ∀ c l c', P c → Step c l c' → A c l → P c') : P (lastOf c tr) :=
  h.invariant hc hstep _ (lastOf_mem_statesOf c tr)

/-! ## Runs with a history -/

section History

variable {Γ : Type} {record : Label S T → Γ → Γ} {B : Γ → Config S T → Label S T → Prop} {γ : Γ}

/-- `tr` is a run from `c`, after the history `γ` that `record` extends, all of whose steps satisfy
`B` where they are taken. -/
def IsRunWith (record : Label S T → Γ → Γ) (B : Γ → Config S T → Label S T → Prop) :
    Γ → Config S T → List (Label S T × Config S T) → Prop
  | _, _, [] => True
  | γ, c, (l, c') :: tr => Step c l c' ∧ B γ c l ∧ IsRunWith record B (record l γ) c' tr

/-- A run is one with a history that says nothing. -/
theorem IsRun.isRunWith (h : IsRun A c tr) (u : Unit) :
    IsRunWith (fun _ u => u) (fun _ c l => A c l) u c tr := by
  induction tr generalizing c with
  | nil => trivial
  | cons x tr ih => exact ⟨h.1, h.2.1, ih h.2.2⟩

/-- The history after a run. -/
def historyOf (record : Label S T → Γ → Γ) (γ : Γ) : List (Label S T × Config S T) → Γ
  | [] => γ
  | (l, _) :: tr => historyOf record (record l γ) tr

/-- An invariant of configuration and history holds at the end of a run. -/
theorem IsRunWith.invariant {P : Γ → Config S T → Prop} (h : IsRunWith record B γ c tr)
    (hc : P γ c) (hstep : ∀ γ c l c', P γ c → Step c l c' → B γ c l → P (record l γ) c') :
    P (historyOf record γ tr) (lastOf c tr) := by
  induction tr generalizing γ c with
  | nil => exact hc
  | cons x tr ih => exact ih h.2.2 (hstep _ _ _ _ hc h.1 h.2.1)

/-- What an invariant gives of every step holds along the run. -/
theorem IsRunWith.strengthen {P : Γ → Config S T → Prop} (h : IsRunWith record B γ c tr)
    (B' : Γ → Config S T → Label S T → Prop) (hc : P γ c)
    (hstep : ∀ γ c l c', P γ c → Step c l c' → B γ c l → B' γ c l ∧ P (record l γ) c') :
    IsRunWith record B' γ c tr ∧ P (historyOf record γ tr) (lastOf c tr) := by
  induction tr generalizing γ c with
  | nil => exact ⟨trivial, hc⟩
  | cons x tr ih =>
    obtain ⟨hB, hP⟩ := hstep _ _ _ _ hc h.1 h.2.1
    have hrest := ih h.2.2 hP
    exact ⟨⟨h.1, hB, hrest.1⟩, hrest.2⟩

end History

/-! ## Computed steps -/

/-- The next step of the call `t`, if it can take one, with the environment's choice `e`. -/
def turn (t : T) (e : S.Env) (c : Config S T) : Option (Label S T × Config S T) :=
  match c.tasks t with
  | none => none
  | some ⟨h, call, .done r⟩ =>
    if S.returns r then
      some (.respond t h call r, { c with tasks := Function.update c.tasks t none })
    else none
  | some ⟨h, call, .call (.op o) k⟩ =>
    some (.op t h o e,
      { c with
        st := (S.step h o e c.st).2
        tasks := c.advance t h call (k (S.step h o e c.st).1) })
  | some ⟨h, call, .call .acquireRead k⟩ =>
    if (c.lock h).writer.isNone then
      some (.acquireRead t h,
        { c with
          lock := Function.update c.lock h ⟨none, t :: (c.lock h).readers⟩
          tasks := c.advance t h call (k ()) })
    else none
  | some ⟨h, call, .call .releaseRead k⟩ =>
    some (.releaseRead t h,
      { c with
        lock := Function.update c.lock h ⟨(c.lock h).writer, (c.lock h).readers.erase t⟩
        tasks := c.advance t h call (k ()) })
  | some ⟨h, call, .call (.acquireWrite note) k⟩ =>
    if (c.lock h).writer.isNone ∧ (c.lock h).readers = [] then
      some (.acquireWrite t h note,
        { c with
          lock := Function.update c.lock h ⟨some t, []⟩
          tasks := c.advance t h call (k ()) })
    else none
  | some ⟨h, call, .call .releaseWrite k⟩ =>
    some (.releaseWrite t h,
      { c with
        lock := Function.update c.lock h ⟨none, (c.lock h).readers⟩
        tasks := c.advance t h call (k ()) })

theorem turn_sound {t : T} {e : S.Env} {l : Label S T} (h : turn t e c = some (l, c')) :
    Step c l c' := by
  unfold turn at h
  split at h
  · cases h
  · rename_i hd call r ht
    split at h
    · cases h; exact .respond t hd call r ht ‹_›
    · cases h
  · rename_i hd call o k ht
    cases h; exact .op t hd call o k e ht
  · rename_i hd call k ht
    split at h
    · rename_i hw
      cases h; exact .acquireRead t hd call k ht (Option.isNone_iff_eq_none.1 hw)
    · cases h
  · rename_i hd call k ht
    cases h; exact .releaseRead t hd call k ht
  · rename_i hd call note k ht
    split at h
    · rename_i hw
      cases h; exact .acquireWrite t hd call note k ht (Option.isNone_iff_eq_none.1 hw.1) hw.2
    · cases h
  · rename_i hd call k ht
    cases h; exact .releaseWrite t hd call k ht

/-- A choice of the next step: a call arrives, a call goes on, or the process stops. -/
inductive Move (S : Service I H) (T : Type) where
  | invoke (t : T) (h : H) (call : S.Call)
  | turn (t : T) (e : S.Env)
  | restart

def Move.apply : Move S T → Config S T → Option (Label S T × Config S T)
  | .invoke t h call, c =>
    if (c.tasks t).isNone ∧ S.ready h call c.st then
      some (.invoke t h call, { c with tasks := c.advance t h call (S.code call) })
    else none
  | .turn t e, c => Proc.turn t e c
  | .restart, c => some (.restart, Config.idle T (S.restart c.st))

theorem Move.apply_sound {m : Move S T} {l : Label S T} (h : m.apply c = some (l, c')) :
    Step c l c' := by
  cases m with
  | invoke t hd call =>
    simp only [Move.apply] at h
    split at h
    · rename_i hc
      cases h
      exact .invoke t hd call (Option.isNone_iff_eq_none.1 hc.1) hc.2
    · cases h
  | turn t e => exact turn_sound h
  | restart => cases h; exact .restart

/-- The run of a schedule, unless one of its moves is not possible. -/
def play : List (Move S T) → Config S T → Option (List (Label S T × Config S T))
  | [], _ => some []
  | m :: ms, c =>
    match m.apply c with
    | none => none
    | some (l, c') => (play ms c').map ((l, c') :: ·)

theorem play_sound {ms : List (Move S T)} (h : play ms c = some tr)
    (hA : ∀ x ∈ tr, ∀ c, A c x.1) : IsRun A c tr := by
  induction ms generalizing c tr with
  | nil => cases h; trivial
  | cons m ms ih =>
    simp only [play] at h
    split at h
    · cases h
    · rename_i l c' hm
      obtain ⟨tr', htr, rfl⟩ := Option.map_eq_some_iff.1 h
      exact ⟨Move.apply_sound hm, hA (l, c') List.mem_cons_self c,
        ih htr fun x hx => hA x (List.mem_cons_of_mem _ hx)⟩

theorem exists_play (ms : List (Move S T)) {P : Config S T → Bool}
    (h : ((play ms c).map fun tr => P (lastOf c tr)) = some true) :
    ∃ tr, play ms c = some tr ∧ P (lastOf c tr) = true := by
  obtain ⟨tr, htr, hP⟩ := Option.map_eq_some_iff.1 h
  exact ⟨tr, htr, hP⟩

def Move.isRestart : Move S T → Bool
  | .restart => true
  | _ => false

/-- Only the move that stops the process does so. -/
theorem Move.label_ne_restart {m : Move S T} {l : Label S T} (h : m.apply c = some (l, c'))
    (hm : m.isRestart = false) : l ≠ .restart := by
  rintro rfl
  cases m with
  | restart => cases hm
  | invoke t hd call =>
    simp only [Move.apply] at h
    split at h <;> cases h
  | turn t e =>
    simp only [Move.apply, Proc.turn] at h
    repeat' split at h
    all_goals cases h

theorem play_ne_restart {ms : List (Move S T)} (h : play ms c = some tr)
    (hms : ms.all fun m => !m.isRestart) : ∀ x ∈ tr, x.1 ≠ .restart := by
  induction ms generalizing c tr with
  | nil => cases h; simp
  | cons m ms ih =>
    simp only [play] at h
    split at h
    · cases h
    · rename_i l c' hm
      obtain ⟨tr', htr, rfl⟩ := Option.map_eq_some_iff.1 h
      simp only [List.all_cons, Bool.and_eq_true, Bool.not_eq_true'] at hms
      intro x hx
      rcases List.mem_cons.1 hx with rfl | hx
      · exact Move.label_ne_restart hm hms.1
      · exact ih htr hms.2 x hx

theorem IsRun.and (h : IsRun A c tr) (h' : IsRun B c tr) : IsRun (fun c l => A c l ∧ B c l) c tr := by
  induction tr generalizing c with
  | nil => trivial
  | cons x tr ih => exact ⟨h.1, ⟨h.2.1, h'.2.1⟩, ih h.2.2 h'.2.2⟩

/-- The steps of a run pass a check. -/
def checks (check : Config S T → Label S T → Bool) : Config S T → List (Label S T × Config S T) → Bool
  | _, [] => true
  | c, (l, c') :: tr => check c l && checks check c' tr

theorem play_checks {ms : List (Move S T)} {check : Config S T → Label S T → Bool}
    (h : play ms c = some tr) (hcheck : checks check c tr = true) :
    IsRun (fun c l => check c l = true) c tr := by
  induction ms generalizing c tr with
  | nil => cases h; trivial
  | cons m ms ih =>
    simp only [play] at h
    split at h
    · cases h
    · rename_i l c' hm
      obtain ⟨tr', htr, rfl⟩ := Option.map_eq_some_iff.1 h
      obtain ⟨hl, hrest⟩ := Bool.and_eq_true_iff.1 hcheck
      exact ⟨Move.apply_sound hm, hl, ih htr hrest⟩

section History

variable {Γ : Type} {record : Label S T → Γ → Γ} {B B' : Γ → Config S T → Label S T → Prop} {γ : Γ}
  {check : Γ → Config S T → Label S T → Bool}

theorem IsRunWith.mono (h : IsRunWith record B γ c tr) (hBB' : ∀ γ c l, B γ c l → B' γ c l) :
    IsRunWith record B' γ c tr := by
  induction tr generalizing γ c with
  | nil => trivial
  | cons x tr ih => exact ⟨h.1, hBB' _ _ _ h.2.1, ih h.2.2⟩

theorem IsRunWith.andRun (h : IsRunWith record B γ c tr) (h' : IsRun A c tr) :
    IsRunWith record (fun γ c l => B γ c l ∧ A c l) γ c tr := by
  induction tr generalizing γ c with
  | nil => trivial
  | cons x tr ih => exact ⟨h.1, ⟨h.2.1, h'.2.1⟩, ih h.2.2 h'.2.2⟩

/-- The steps of a run pass a check that looks at the history. -/
def checksWith (record : Label S T → Γ → Γ) (check : Γ → Config S T → Label S T → Bool) :
    Γ → Config S T → List (Label S T × Config S T) → Bool
  | _, _, [] => true
  | γ, c, (l, c') :: tr => check γ c l && checksWith record check (record l γ) c' tr

theorem play_checksWith {ms : List (Move S T)} (h : play ms c = some tr)
    (hcheck : checksWith record check γ c tr = true) :
    IsRunWith record (fun γ c l => check γ c l = true) γ c tr := by
  induction ms generalizing γ c tr with
  | nil => cases h; trivial
  | cons m ms ih =>
    simp only [play] at h
    split at h
    · cases h
    · rename_i l c' hm
      obtain ⟨tr', htr, rfl⟩ := Option.map_eq_some_iff.1 h
      obtain ⟨hl, hrest⟩ := Bool.and_eq_true_iff.1 hcheck
      exact ⟨Move.apply_sound hm, hl, ih htr hrest⟩

theorem IsRunWith.checksWith (h : IsRunWith record B γ c tr)
    (hcheck : ∀ γ c l, B γ c l → check γ c l = true) :
    Proc.checksWith record check γ c tr = true := by
  induction tr generalizing γ c with
  | nil => rfl
  | cons x tr ih => exact Bool.and_eq_true_iff.2 ⟨hcheck _ _ _ h.2.1, ih h.2.2⟩

end History

/-- An operation gets the choice of its move. -/
theorem Move.apply_op {m : Move S T} {t : T} {hd : H} {o : I.Op} {e : S.Env}
    (h : m.apply c = some (.op t hd o e, c')) : m = .turn t e := by
  cases m with
  | restart => cases h
  | invoke t hd call =>
    simp only [Move.apply] at h
    split at h <;> cases h
  | turn t e =>
    simp only [Move.apply, Proc.turn] at h
    repeat' split at h
    all_goals cases h
    rfl

/-- The choices of the environment are those of the moves. -/
theorem play_env {ms : List (Move S T)} {E : S.Env → Prop} (h : play ms c = some tr)
    (hms : ∀ t e, Move.turn t e ∈ ms → E e) :
    IsRun (fun _ l => ∀ t hd o e, l = .op t hd o e → E e) c tr := by
  induction ms generalizing c tr with
  | nil => cases h; trivial
  | cons m ms ih =>
    simp only [play] at h
    split at h
    · cases h
    · rename_i l c' hm
      obtain ⟨tr', htr, rfl⟩ := Option.map_eq_some_iff.1 h
      refine ⟨Move.apply_sound hm, ?_, ih htr fun t e he => hms t e (List.mem_cons_of_mem _ he)⟩
      rintro t hd o e rfl
      exact hms t e (Move.apply_op hm ▸ List.mem_cons_self)

end System

end Proc
