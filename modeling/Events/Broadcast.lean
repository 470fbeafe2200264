import Events.Notifications

/-!
# Progress broadcast and reconnection

`src/broadcast.rs` with the notifications store: a publisher records every event of a request and
then sends it to the broadcast loop, the loop hands it to the receivers there are, and a client
reconnects by `get`, then `subscribe`, then `recv` until a terminal event.

* **`State`** — the three parties, the channel between publisher and loop, the receiver's queue.
* **`Step`** — one step of one party; other receivers come and go.
* **`pipeline`** — the events that the loop has not handed on yet, in order: only the loop shortens
  it (`Step.pipeline`).
* **`Lost`** — the step that loses the outcome: the loop hands on or discards a terminal event while
  the client is between its `get`, which returned none, and its `subscribe`.
* **`client_learns_outcome`** — a run without such a step ends with the client knowing the outcome.
-/

namespace Events.Broadcast

open Notifications (StreamEvent)

/-! ## The parties -/

/-- `StreamEventBroadcastLoop::run`, between its steps. -/
inductive Loop where
  /-- At `rx.recv`. -/
  | waiting
  /-- Before the look at `receiver_count`. -/
  | received (event : StreamEvent)
  /-- Before `broadcast_tx.send`. -/
  | sending (event : StreamEvent)

/-- The client, with the queue of its receiver. -/
inductive Client where
  | start
  /-- After `NotificationsStore::get`, before `subscribe`. -/
  | between
  | listening (queue : List StreamEvent)
  /-- After the terminal event; the receiver is dropped. -/
  | finished

structure State where
  /-- The events that the publisher has still to record. -/
  todo : List StreamEvent
  /-- The event that it has recorded and has still to send. -/
  recorded : Option StreamEvent
  /-- The last recorded event of the request. -/
  store : Option StreamEvent
  /-- The channel to the loop. -/
  channel : List StreamEvent
  loop : Loop
  client : Client
  /-- What the client got from `get` and from its receiver. -/
  seen : List StreamEvent
  /-- The receivers of other clients. -/
  others : Nat

/-- Before a request's first event. -/
def State.start (events : List StreamEvent) (others : Nat) : State :=
  ⟨events, none, none, [], .waiting, .start, [], others⟩

/-- The client's own receiver, counted. -/
def Client.receivers : Client → Nat
  | .listening _ => 1
  | _ => 0

/-- `receiver_count`. -/
def State.receiverCount (s : State) : Nat := s.others + s.client.receivers

/-- A receiver gets what is sent while it is there. -/
def Client.deliver (event : StreamEvent) : Client → Client
  | .listening queue => .listening (queue ++ [event])
  | client => client

inductive Label where
  | record
  | send
  | recv
  | discard
  | keep
  | broadcast
  | get
  | subscribe
  | receive
  | others

/-- One step of one party. The channel holds at most `capacity` events. -/
inductive Step (capacity : Nat) : State → Label → State → Prop where
  /-- `NotificationsStore::record` -/
  | record {s : State} {event : StreamEvent} {rest : List StreamEvent}
      (htodo : s.todo = event :: rest) (hrecorded : s.recorded = none) :
      Step capacity s .record
        { s with todo := rest, recorded := some event, store := some event }
  /-- `StreamEventSender::send`, which waits while the channel is full -/
  | send {s : State} {event : StreamEvent} (hrecorded : s.recorded = some event)
      (hroom : s.channel.length < capacity) :
      Step capacity s .send { s with recorded := none, channel := s.channel ++ [event] }
  | recv {s : State} {event : StreamEvent} {rest : List StreamEvent} (hloop : s.loop = .waiting)
      (hchannel : s.channel = event :: rest) :
      Step capacity s .recv { s with loop := .received event, channel := rest }
  /-- "No subscribers for stream event" -/
  | discard {s : State} {event : StreamEvent} (hloop : s.loop = .received event)
      (hnone : s.receiverCount = 0) : Step capacity s .discard { s with loop := .waiting }
  | keep {s : State} {event : StreamEvent} (hloop : s.loop = .received event)
      (hsome : s.receiverCount ≠ 0) : Step capacity s .keep { s with loop := .sending event }
  | broadcast {s : State} {event : StreamEvent} (hloop : s.loop = .sending event) :
      Step capacity s .broadcast { s with loop := .waiting, client := s.client.deliver event }
  /-- `NotificationsStore::get` -/
  | get {s : State} (hclient : s.client = .start) :
      Step capacity s .get { s with client := .between, seen := s.seen ++ s.store.toList }
  | subscribe {s : State} (hclient : s.client = .between) :
      Step capacity s .subscribe { s with client := .listening [] }
  /-- `recv`, until a terminal event -/
  | receive {s : State} {event : StreamEvent} {queue : List StreamEvent}
      (hclient : s.client = .listening (event :: queue)) :
      Step capacity s .receive
        { s with
          client := if event.isTerminal then .finished else .listening queue
          seen := s.seen ++ [event] }
  | others {s : State} (n : Nat) : Step capacity s .others { s with others := n }

/-- A sequence of steps, with the state before each. -/
inductive Steps (capacity : Nat) : State → List (State × Label) → State → Prop where
  | nil (s : State) : Steps capacity s [] s
  | cons {s s' t : State} {l : Label} {trace : List (State × Label)} (h : Step capacity s l s')
      (rest : Steps capacity s' trace t) : Steps capacity s ((s, l) :: trace) t

/-- Publisher and loop have nothing left to do, and the client has taken all it was sent. -/
structure Final (s : State) : Prop where
  todo : s.todo = []
  recorded : s.recorded = none
  channel : s.channel = []
  loop : s.loop = .waiting
  client : s.client = .listening [] ∨ s.client = .finished

/-- A list that holds a terminal event. -/
def HasOutcome (events : List StreamEvent) : Prop := ∃ e ∈ events, e.isTerminal = true

/-- The client has obtained a terminal event. -/
def Learns (s : State) : Prop := HasOutcome s.seen

/-! ## The way of the events -/

def Loop.held : Loop → List StreamEvent
  | .waiting => []
  | .received event => [event]
  | .sending event => [event]

/-- The events that the loop has not handed on, in their order. -/
def State.pipeline (s : State) : List StreamEvent :=
  s.loop.held ++ s.channel ++ s.recorded.toList ++ s.todo

/-- The loop is done with the event it holds. -/
def HandsOn : Label → Prop
  | .discard => True
  | .broadcast => True
  | _ => False

/-- The step that loses the outcome: the loop hands on or discards a terminal event while the client
is between its `get`, which returned none, and its `subscribe`. -/
def Lost (s : State) (l : Label) : Prop :=
  HandsOn l ∧ HasOutcome s.loop.held ∧ s.client = .between ∧ ¬ Learns s

section Lists

variable {as bs : List StreamEvent} {e : StreamEvent}

@[simp] theorem hasOutcome_nil : ¬ HasOutcome [] := fun ⟨_, h, _⟩ => List.not_mem_nil h

@[simp] theorem hasOutcome_append : HasOutcome (as ++ bs) ↔ HasOutcome as ∨ HasOutcome bs := by
  unfold HasOutcome
  simp only [List.mem_append, or_and_right, exists_or]

@[simp] theorem hasOutcome_cons : HasOutcome (e :: as) ↔ e.isTerminal = true ∨ HasOutcome as := by
  unfold HasOutcome
  simp only [List.mem_cons, or_and_right, exists_or, exists_eq_left]

end Lists

/-- **Only the loop shortens the pipeline**, by the event it holds. -/
theorem Step.pipeline {capacity : Nat} {s s' : State} {l : Label} (h : Step capacity s l s') :
    (¬ HandsOn l ∧ s'.pipeline = s.pipeline) ∨
      HandsOn l ∧ ∃ event, s.loop.held = [event] ∧ s.pipeline = event :: s'.pipeline := by
  unfold State.pipeline
  cases h with
  | record htodo hrecorded => left; simp [HandsOn, htodo, hrecorded]
  | send hrecorded _ => left; simp [HandsOn, hrecorded]
  | recv hloop hchannel => left; simp [HandsOn, hloop, hchannel, Loop.held]
  | discard hloop _ => right; exact ⟨trivial, _, by rw [hloop]; rfl, by rw [hloop]; rfl⟩
  | keep hloop _ => left; simp [HandsOn, hloop, Loop.held]
  | broadcast hloop => right; exact ⟨trivial, _, by rw [hloop]; rfl, by rw [hloop]; rfl⟩
  | get _ => left; simp [HandsOn]
  | subscribe _ => left; simp [HandsOn]
  | receive _ => left; simp [HandsOn]
  | others n => left; simp [HandsOn]

/-! ## The outcome reaches the client -/

/-- The last event to come is terminal, or the store has a terminal one. -/
def OutcomeToCome (todo : List StreamEvent) (store : Option StreamEvent) : Prop :=
  (∀ e, todo.getLast? = some e → e.isTerminal = true) ∧ (todo = [] → HasOutcome store.toList)

/-- Where the outcome is, by the phase of the client. -/
def OutcomeAhead (s : State) : Prop :=
  match s.client with
  | .start => OutcomeToCome s.todo s.store
  | .between => Learns s ∨ HasOutcome s.pipeline
  | .listening queue => Learns s ∨ HasOutcome queue ∨ HasOutcome s.pipeline
  | .finished => Learns s

theorem OutcomeToCome.record {event : StreamEvent} {rest : List StreamEvent}
    {store : Option StreamEvent} (h : OutcomeToCome (event :: rest) store) :
    OutcomeToCome rest (some event) := by
  constructor
  · intro e he
    refine h.1 e ?_
    rw [List.getLast?_cons, he]
    rfl
  · rintro rfl
    exact ⟨event, List.mem_cons_self, h.1 event rfl⟩

/-- What is to come is in the pipeline, or the store has it. -/
theorem OutcomeToCome.split {todo : List StreamEvent} {store : Option StreamEvent}
    (h : OutcomeToCome todo store) : HasOutcome store.toList ∨ HasOutcome todo := by
  rcases List.eq_nil_or_concat todo with rfl | ⟨init, e, rfl⟩
  · exact .inl (h.2 rfl)
  · exact .inr ⟨e, by simp, h.1 e (by simp)⟩

/-- A step that leaves the client and its receiver alone. -/
theorem OutcomeAhead.of_pipeline {s s' : State} (h : OutcomeAhead s) (hclient : s'.client = s.client)
    (hseen : s'.seen = s.seen) (hpipeline : s'.pipeline = s.pipeline)
    (hstart : OutcomeToCome s.todo s.store → OutcomeToCome s'.todo s'.store) : OutcomeAhead s' := by
  unfold OutcomeAhead Learns at h ⊢
  rw [hclient, hseen, hpipeline]
  cases hc : s.client <;> rw [hc] at h
  · exact hstart h
  all_goals exact h

/-- **One step** that does not lose the outcome keeps it ahead of the client. -/
theorem OutcomeAhead.step {capacity : Nat} {s s' : State} {l : Label} (h : OutcomeAhead s)
    (hstep : Step capacity s l s') (hkeeps : ¬ Lost s l) : OutcomeAhead s' := by
  have hpipeline := hstep.pipeline
  cases hstep with
  | record htodo hrecorded =>
    refine h.of_pipeline rfl rfl (hpipeline.resolve_right fun hh => hh.1).2 fun hcome => ?_
    rw [htodo] at hcome
    exact hcome.record
  | send _ _ => exact h.of_pipeline rfl rfl (hpipeline.resolve_right fun hh => hh.1).2 id
  | recv _ _ => exact h.of_pipeline rfl rfl (hpipeline.resolve_right fun hh => hh.1).2 id
  | keep _ _ => exact h.of_pipeline rfl rfl (hpipeline.resolve_right fun hh => hh.1).2 id
  | others n => exact h.of_pipeline rfl rfl (hpipeline.resolve_right fun hh => hh.1).2 id
  | discard hloop hnone =>
    -- the event goes nowhere: where it is the outcome and the client has not seen one, the step is excluded
    obtain ⟨event, hheld, hpipe⟩ := (hpipeline.resolve_left fun hh => hh.1 trivial).2
    unfold OutcomeAhead at h ⊢
    cases hc : s.client with
    | start => rw [hc] at h; exact h
    | finished => rw [hc] at h; exact h
    | listening queue => exact absurd hnone (by rw [State.receiverCount, hc]; simp [Client.receivers])
    | between =>
      rw [hc] at h
      rw [hpipe, hasOutcome_cons] at h
      rcases h with hseen | hterminal | hlater
      · exact .inl hseen
      · by_cases hlearned : Learns s
        · exact .inl hlearned
        · exact absurd ⟨trivial, by rw [hheld]; simpa using hterminal, hc, hlearned⟩ hkeeps
      · exact .inr hlater
  | broadcast hloop =>
    obtain ⟨event, hheld, hpipe⟩ := (hpipeline.resolve_left fun hh => hh.1 trivial).2
    rw [hloop] at hheld
    obtain rfl : _ = event := by simpa [Loop.held] using hheld
    unfold OutcomeAhead at h ⊢
    cases hc : s.client with
    | start => rw [hc] at h; exact h
    | finished => rw [hc] at h; exact h
    | listening queue =>
      rw [hc] at h
      rw [hpipe, hasOutcome_cons] at h
      show Learns _ ∨ HasOutcome (queue ++ [_]) ∨ _
      rw [hasOutcome_append, hasOutcome_cons]
      tauto
    | between =>
      rw [hc] at h
      rw [hpipe, hasOutcome_cons] at h
      rcases h with hseen | hterminal | hlater
      · exact .inl hseen
      · by_cases hlearned : Learns s
        · exact .inl hlearned
        · exact absurd ⟨trivial, by rw [hloop]; simpa [Loop.held] using hterminal, hc, hlearned⟩
            hkeeps
      · exact .inr hlater
  | get hclient =>
    -- the store has the outcome, or its record is still to come and the broadcast behind it
    unfold OutcomeAhead at h ⊢
    rw [hclient] at h
    show HasOutcome (s.seen ++ s.store.toList) ∨ HasOutcome s.pipeline
    rw [hasOutcome_append]
    rcases h.split with hstore | htodo
    · exact .inl (.inr hstore)
    · refine .inr ?_
      unfold State.pipeline
      rw [hasOutcome_append]
      exact .inr htodo
  | subscribe hclient =>
    unfold OutcomeAhead at h ⊢
    rw [hclient] at h
    exact h.imp id .inr
  | receive hclient =>
    rename_i event queue
    unfold OutcomeAhead at h ⊢
    rw [hclient] at h
    by_cases hterminal : event.isTerminal = true
    · have hlearns : HasOutcome (s.seen ++ [event]) := by
        rw [hasOutcome_append]
        exact .inr (by simpa using hterminal)
      simp only [hterminal, if_true]
      exact hlearns
    · have hrest : HasOutcome (s.seen ++ [event]) ∨ HasOutcome queue ∨ HasOutcome s.pipeline := by
        have hqueue : HasOutcome s.seen ∨ HasOutcome (event :: queue) ∨ HasOutcome s.pipeline := h
        rw [hasOutcome_cons] at hqueue
        rw [hasOutcome_append]
        tauto
      simp only [hterminal]
      exact hrest

theorem OutcomeAhead.steps {capacity : Nat} {s t : State} {trace : List (State × Label)}
    (h : OutcomeAhead s) (hsteps : Steps capacity s trace t) (hkeeps : ∀ x ∈ trace, ¬ Lost x.1 x.2) :
    OutcomeAhead t := by
  induction hsteps with
  | nil s => exact h
  | cons hstep _ ih =>
    refine ih (h.step hstep (hkeeps _ List.mem_cons_self)) ?_
    exact fun x hx => hkeeps x (List.mem_cons_of_mem _ hx)

/-- At the end the outcome can only be with the client. -/
theorem OutcomeAhead.learns {s : State} (h : OutcomeAhead s) (hfinal : Final s) : Learns s := by
  have hempty : s.pipeline = [] := by
    unfold State.pipeline
    rw [hfinal.todo, hfinal.recorded, hfinal.channel, hfinal.loop]
    rfl
  unfold OutcomeAhead at h
  rcases hfinal.client with hc | hc
  · rw [hc, hempty] at h
    simpa using h
  · rw [hc] at h
    exact h

/-! ## The outcome that is lost -/

/-- No terminal event can reach the client any more. -/
structure OutcomeGone (s : State) : Prop where
  seen : ¬ Learns s
  pipeline : ¬ HasOutcome s.pipeline
  client : s.client = .between ∨ ∃ queue, s.client = .listening queue ∧ ¬ HasOutcome queue

theorem OutcomeGone.step {capacity : Nat} {s s' : State} {l : Label} (h : OutcomeGone s)
    (hstep : Step capacity s l s') : OutcomeGone s' := by
  -- nothing comes back into the pipeline
  have hpipeline : ¬ HasOutcome s'.pipeline := by
    rcases hstep.pipeline with ⟨-, hsame⟩ | ⟨-, event, -, hcons⟩
    · rw [hsame]
      exact h.pipeline
    · have hgone := h.pipeline
      rw [hcons, hasOutcome_cons] at hgone
      tauto
  -- most steps leave the client alone
  have hsame : s'.seen = s.seen → s'.client = s.client → OutcomeGone s' :=
    fun hseen hclient => ⟨by unfold Learns; rw [hseen]; exact h.seen, hpipeline, hclient ▸ h.client⟩
  cases hstep with
  | record _ _ => exact hsame rfl rfl
  | send _ _ => exact hsame rfl rfl
  | recv _ _ => exact hsame rfl rfl
  | discard _ _ => exact hsame rfl rfl
  | keep _ _ => exact hsame rfl rfl
  | others n => exact hsame rfl rfl
  | broadcast hloop =>
    rename_i event
    -- what the loop sends is still in the pipeline, so it is not terminal
    have hevent : ¬ event.isTerminal = true := by
      have hgone := h.pipeline
      rw [State.pipeline, hloop] at hgone
      exact fun hterminal => hgone ⟨event, by simp [Loop.held], hterminal⟩
    refine ⟨h.seen, hpipeline, ?_⟩
    rcases h.client with hc | ⟨queue, hc, hqueue⟩
    · left
      show s.client.deliver event = .between
      rw [hc]
      rfl
    · right
      refine ⟨queue ++ [event], ?_, ?_⟩
      · show s.client.deliver event = _
        rw [hc]
        rfl
      · rw [hasOutcome_append]
        simp [hqueue, hevent]
  | get hclient =>
    rcases h.client with hc | ⟨queue, hc, -⟩
    · exact absurd (hclient.symm.trans hc) nofun
    · exact absurd (hclient.symm.trans hc) nofun
  | subscribe hclient => exact ⟨h.seen, hpipeline, .inr ⟨[], rfl, hasOutcome_nil⟩⟩
  | receive hclient =>
    rename_i event queue
    rcases h.client with hc | ⟨queue', hc, hqueue⟩
    · exact absurd (hclient.symm.trans hc) nofun
    · obtain rfl : event :: queue = queue' := by
        rw [hclient] at hc
        exact Client.listening.inj hc
      rw [hasOutcome_cons] at hqueue
      have hevent : ¬ event.isTerminal = true := fun hterminal => hqueue (.inl hterminal)
      refine ⟨?_, hpipeline, .inr ⟨queue, ?_, fun hrest => hqueue (.inr hrest)⟩⟩
      · show ¬ HasOutcome (s.seen ++ [event])
        rw [hasOutcome_append]
        have hseen := h.seen
        unfold Learns at hseen
        simp [hseen, hevent]
      · exact if_neg hevent

theorem OutcomeGone.steps {capacity : Nat} {s t : State} {trace : List (State × Label)}
    (h : OutcomeGone s) (hsteps : Steps capacity s trace t) : OutcomeGone t := by
  induction hsteps with
  | nil s => exact h
  | cons hstep _ ih => exact ih (h.step hstep)

/-- The pipeline of a run is a suffix of the request's events. -/
theorem Step.suffix {capacity : Nat} {s s' : State} {l : Label} {events : List StreamEvent}
    (h : Step capacity s l s') (hsuffix : s.pipeline <:+ events) : s'.pipeline <:+ events := by
  rcases h.pipeline with ⟨-, hsame⟩ | ⟨-, event, -, hcons⟩
  · rw [hsame]
    exact hsuffix
  · rw [hcons] at hsuffix
    exact (List.suffix_cons _ _).trans hsuffix

/-- With a single terminal event, the one that is lost leaves none behind. -/
theorem Lost.gone {capacity : Nat} {s s' : State} {l : Label} {events : List StreamEvent}
    (h : Lost s l) (hstep : Step capacity s l s') (hsuffix : s.pipeline <:+ events)
    (hsingle : ∀ e ∈ events.dropLast, ¬ e.isTerminal = true) : OutcomeGone s' := by
  obtain ⟨hhands, hheld, hclient, hseen⟩ := h
  obtain ⟨event, hevent, hcons⟩ := (hstep.pipeline.resolve_left fun hh => hh.1 hhands).2
  have hterminal : event.isTerminal = true := by simpa [hevent] using hheld
  have hrest : s'.pipeline = [] := by
    by_contra hne
    obtain ⟨before, rfl⟩ := hsuffix
    refine hsingle event ?_ hterminal
    rw [hcons, List.dropLast_append_of_ne_nil (by simp), List.dropLast_cons_of_ne_nil hne]
    simp
  have hkept : s'.seen = s.seen ∧ s'.client = .between := by
    cases hstep with
    | discard _ _ => exact ⟨rfl, hclient⟩
    | broadcast _ =>
      refine ⟨rfl, ?_⟩
      show s.client.deliver _ = .between
      rw [hclient]
      rfl
    | _ => exact absurd hhands id
  refine ⟨?_, by rw [hrest]; exact hasOutcome_nil, .inl hkept.2⟩
  unfold Learns
  rw [hkept.1]
  exact hseen

theorem learns_not_lost {capacity : Nat} {s t : State} {trace : List (State × Label)}
    {events : List StreamEvent} (hsteps : Steps capacity s trace t) (hsuffix : s.pipeline <:+ events)
    (hsingle : ∀ e ∈ events.dropLast, ¬ e.isTerminal = true) (hlearns : Learns t) :
    ∀ x ∈ trace, ¬ Lost x.1 x.2 := by
  induction hsteps with
  | nil s => exact fun x hx => absurd hx List.not_mem_nil
  | cons hstep rest ih =>
    rintro x (_ | ⟨_, hx⟩)
    · exact fun hlost => ((hlost.gone hstep hsuffix hsingle).steps rest).seen hlearns
    · exact ih (hstep.suffix hsuffix) hlearns x hx

/-! ## Every run ends -/

/-- How many steps the parties can still take, at most. -/
def remaining (s : State) : Nat :=
  6 * s.todo.length + 5 * s.recorded.toList.length + 4 * s.channel.length +
    (match s.loop with
      | .waiting => 0
      | .received _ => 3
      | .sending _ => 2) +
    (match s.client with
      | .start => 2
      | .between => 1
      | .listening queue => queue.length
      | .finished => 0)

/-- Every step of a party brings the end nearer. -/
theorem Step.remaining_lt {capacity : Nat} {s s' : State} {l : Label} (h : Step capacity s l s')
    (hparty : l ≠ .others) : remaining s' < remaining s := by
  unfold remaining
  cases h with
  | record htodo hrecorded => simp [htodo, hrecorded]; omega
  | send hrecorded _ => simp [hrecorded]; omega
  | recv hloop hchannel => simp [hloop, hchannel]; omega
  | discard hloop _ => simp [hloop]
  | keep hloop _ => simp [hloop]
  | broadcast hloop => cases hc : s.client <;> simp [hloop, Client.deliver]; omega
  | get hclient => simp [hclient]
  | subscribe hclient => simp [hclient]
  | receive hclient =>
    rename_i event queue
    cases hterminal : event.isTerminal <;> simp [hclient]
  | others n => exact absurd rfl hparty

/-- Before the end some party can take a step. -/
theorem exists_step {capacity : Nat} (hcapacity : 0 < capacity) {s : State} (h : ¬ Final s) :
    ∃ l s', l ≠ .others ∧ Step capacity s l s' := by
  cases hloop : s.loop with
  | received event =>
    by_cases hnone : s.receiverCount = 0
    · exact ⟨.discard, _, nofun, .discard hloop hnone⟩
    · exact ⟨.keep, _, nofun, .keep hloop hnone⟩
  | sending event => exact ⟨.broadcast, _, nofun, .broadcast hloop⟩
  | waiting =>
    cases hchannel : s.channel with
    | cons event rest => exact ⟨.recv, _, nofun, .recv hloop hchannel⟩
    | nil =>
      cases hrecorded : s.recorded with
      | some event =>
        exact ⟨.send, _, nofun, .send hrecorded (by rw [hchannel]; exact hcapacity)⟩
      | none =>
        cases htodo : s.todo with
        | cons event rest => exact ⟨.record, _, nofun, .record htodo hrecorded⟩
        | nil =>
          cases hclient : s.client with
          | start => exact ⟨.get, _, nofun, .get hclient⟩
          | between => exact ⟨.subscribe, _, nofun, .subscribe hclient⟩
          | listening queue =>
            cases queue with
            | cons event queue => exact ⟨.receive, _, nofun, .receive hclient⟩
            | nil => exact absurd ⟨htodo, hrecorded, hchannel, hloop, .inl hclient⟩ h
          | finished => exact absurd ⟨htodo, hrecorded, hchannel, hloop, .inr hclient⟩ h

/-! ## The store -/

open Notifications in
/-- While nothing expires, `get` reads the last of a request's recorded events, as `State.store` has
it. -/
theorem visible_getLast {ttl : Nat} {requestId : Text} {t : Int}
    (records : List (StreamEvent × Int)) (hids : ∀ x ∈ records, x.1.requestId = requestId)
    (hfresh : ∀ x ∈ records, t < x.2 + ttl) :
    visible ttl requestId t (records.map fun x => .record x.1 x.2) =
      records.getLast?.map Prod.fst := by
  rcases List.eq_nil_or_concat records with rfl | ⟨init, x, rfl⟩
  · rfl
  · rw [List.concat_eq_append] at hids hfresh ⊢
    have hid := hids x (by simp)
    have hlast : lastRecorded requestId ((init ++ [x]).map fun x => .record x.1 x.2) = some x := by
      rw [List.map_append, List.map_singleton, lastRecorded_snoc, remember_record, if_pos hid]
    unfold visible
    rw [hlast, List.getLast?_append]
    simp [hfresh x (by simp)]

/-! ## The law -/

/-- **A reconnecting client learns the outcome** in every run in which the loop does not hand on or
discard a terminal event between the client's `get`, when that returned none, and its `subscribe`.
Where the terminal event is the only one, the client learns it in no other run. -/
theorem client_learns_outcome {capacity others : Nat} {events : List StreamEvent}
    {outcome : StreamEvent} {trace : List (State × Label)} {t : State}
    (hlast : events.getLast? = some outcome) (houtcome : outcome.isTerminal = true)
    (hsteps : Steps capacity (.start events others) trace t) (hfinal : Final t) :
    ((∀ x ∈ trace, ¬ Lost x.1 x.2) → Learns t) ∧
      ((∀ e ∈ events.dropLast, ¬ e.isTerminal = true) → Learns t →
        ∀ x ∈ trace, ¬ Lost x.1 x.2) := by
  have hahead : OutcomeAhead (.start events others) := by
    refine ⟨fun e he => ?_, fun hnil => ?_⟩
    · obtain rfl : outcome = e := Option.some.inj (hlast.symm.trans he)
      exact houtcome
    · exact absurd hlast (by rw [show events = [] from hnil]; nofun)
  refine ⟨fun hkeeps => (hahead.steps hsteps hkeeps).learns hfinal, fun hsingle hlearns => ?_⟩
  exact learns_not_lost hsteps (List.suffix_refl events) hsingle hlearns

open Notifications (finishedImport)

/-- The outcome is recorded before the client asks. -/
theorem client_learns_outcome_early :
    ∃ trace t, Steps 256 (.start [finishedImport] 0) trace t ∧ Learns t := by
  have hsteps : Steps 256 (.start [finishedImport] 0) _ _ :=
    .cons (.record rfl rfl) <| .cons (.send rfl (by decide)) <| .cons (.get rfl) <|
      .cons (.recv rfl rfl) <| .cons (.discard rfl rfl) <| .cons (.subscribe rfl) <| .nil _
  refine ⟨_, _, hsteps, (client_learns_outcome rfl rfl hsteps ⟨rfl, rfl, rfl, rfl, .inl rfl⟩).1 ?_⟩
  have hseen : HasOutcome [finishedImport] := ⟨finishedImport, List.mem_cons_self, rfl⟩
  rintro x hx ⟨hhands, -, hclient, hnone⟩
  simp only [List.mem_cons, List.not_mem_nil, or_false] at hx
  rcases hx with rfl | rfl | rfl | rfl | rfl | rfl
  · exact hhands
  · exact hhands
  · exact hhands
  · exact hhands
  · exact hnone hseen
  · exact hhands

/-- **The outcome between `get` and `subscribe`**: the client asks, the outcome is recorded, sent and
discarded for want of a receiver, and the client subscribes. -/
theorem not_learns_between :
    ∃ trace t, Steps 256 (.start [finishedImport] 0) trace t ∧ Final t ∧ ¬ Learns t := by
  refine ⟨_, _, .cons (.get rfl) <| .cons (.record rfl rfl) <| .cons (.send rfl (by decide)) <|
    .cons (.recv rfl rfl) <| .cons (.discard rfl rfl) <| .cons (.subscribe rfl) <| .nil _,
    ⟨rfl, rfl, rfl, rfl, .inl rfl⟩, ?_⟩
  exact hasOutcome_nil

end Events.Broadcast
