import Events.Notifications
import Events.Lib.Lossy

/-!
# The broadcast to many receivers

`src/broadcast.rs` as a whole: any number of senders, the loop, and any number of receivers that
subscribe and go, over the two channels that `create_broadcast_system_with_capacity` makes. The first
one waits, or refuses, when it is full; the second one lets a receiver that falls behind miss the oldest
events. Every step of every party is a step of the system. The two channels are parameters, and the
results ask for their laws: what tokio promises of a channel of a given capacity, and no more.

* **`State`**, **`step`** — the parties and the two channels.
* **`accepted`**, **`handed`**, **`heard`** — what the senders got through, what the loop has handed on,
  and what a receiver was told.
* **`Delivered`** — the invariant, and **`Delivered.step`**, what a step keeps of it.
* **`fan_out`** — the result on runs.
-/

namespace Events.FanOut

open Lossy
open Notifications (StreamEvent)

/-! ## The parties -/

inductive StreamEventSendError where
  | channelClosed
  | channelFull
  deriving DecidableEq

/-- `StreamEventBroadcastLoop::run`, between its steps. -/
inductive Loop where
  /-- At `rx.recv`. -/
  | waiting
  /-- Before the look at `receiver_count`. -/
  | received (event : StreamEvent)
  /-- Before `broadcast_tx.send`. -/
  | sending (event : StreamEvent)
  /-- `rx.recv` has returned none. -/
  | stopped
  /-- The task was dropped, with what it held. -/
  | aborted (unsent : List StreamEvent)

/-- The events that the loop has taken and not handed on. -/
def Loop.held : Loop → List StreamEvent
  | .received event | .sending event => [event]
  | .aborted unsent => unsent
  | .waiting | .stopped => []

/-- The receiving end of the senders' channel is gone. -/
def Loop.isGone : Loop → Bool
  | .stopped | .aborted _ => true
  | _ => false

/-- A receiver that `subscribe` has returned. -/
structure Subscription (C : Channel StreamEvent) where
  /-- `none` once it was dropped. -/
  receiver : Option C.Receiver
  /-- What `recv` has returned so far. -/
  heard : List (Heard StreamEvent)
  /-- How many events had been handed on before. -/
  since : Nat

/-- The parties, with the channel `K` from the senders to the loop and the channel `C` from the loop to the
receivers. -/
structure State (K : Queue StreamEvent) (C : Channel StreamEvent) where
  /-- The clones of `StreamEventSender`. -/
  senders : Nat
  /-- The channel to the loop. -/
  channel : K.State
  loop : Loop
  subscriptions : List (Subscription C)
  /-- The events whose `send` or `try_send` has succeeded. -/
  accepted : List StreamEvent
  /-- The events that the loop is done with. -/
  handed : List StreamEvent

section Parties

variable {K : Queue StreamEvent} {C : Channel StreamEvent}

/-- `create_broadcast_system_with_capacity`. -/
def State.new : State K C := ⟨1, K.new, .waiting, [], [], []⟩

/-- `receiver_count`. -/
def State.receiverCount (s : State K C) : Nat :=
  s.subscriptions.countP fun sub => sub.receiver.isSome

/-- The event has gone into the channel to the loop, whose state is now `channel`. -/
def State.accept (event : StreamEvent) (channel : K.State) (s : State K C) : State K C :=
  { s with channel := channel, accepted := s.accepted ++ [event] }

/-- `StreamEventSender::send`; `none` while it waits for room. -/
def send (event : StreamEvent) (s : State K C) :
    Option (Except StreamEventSendError Unit × State K C) :=
  if s.loop.isGone then some (.error .channelClosed, s)
  else
    match K.offer event s.channel with
    | some channel => some (.ok (), s.accept event channel)
    | none => none

/-- `StreamEventSender::try_send`. -/
def trySend (event : StreamEvent) (s : State K C) : Except StreamEventSendError Unit × State K C :=
  if s.loop.isGone then (.error .channelClosed, s)
  else
    match K.offer event s.channel with
    | some channel => (.ok (), s.accept event channel)
    | none => (.error .channelFull, s)

/-- `broadcast_tx.send`: every receiver that is there gets the event. -/
def Subscription.deliver (event : StreamEvent) (sub : Subscription C) : Subscription C :=
  { sub with receiver := sub.receiver.map (C.deliver event) }

inductive Event where
  | cloneSender
  | dropSender
  | send (event : StreamEvent)
  | trySend (event : StreamEvent)
  /-- The loop's `rx.recv`. -/
  | recv
  /-- The loop's look at `receiver_count`. -/
  | look
  /-- The loop's `broadcast_tx.send`. -/
  | broadcast
  /-- The task of the loop is dropped. -/
  | abort
  | subscribe
  /-- `recv` of the receiver `i`. -/
  | receive (i : Nat)
  | dropReceiver (i : Nat)

/-- One step of one party; `none` where it is not possible. -/
def step : Event → State K C → Option (State K C)
  | .cloneSender, s => if 0 < s.senders then some { s with senders := s.senders + 1 } else none
  | .dropSender, s => if 0 < s.senders then some { s with senders := s.senders - 1 } else none
  | .send event, s => if 0 < s.senders then (send event s).map Prod.snd else none
  | .trySend event, s => if 0 < s.senders then some (trySend event s).2 else none
  | .recv, s =>
    match s.loop with
    | .waiting =>
      match K.recv s.channel with
      | some (event, rest) => some { s with loop := .received event, channel := rest }
      | none => if s.senders = 0 then some { s with loop := .stopped } else none
    | _ => none
  | .look, s =>
    match s.loop with
    | .received event =>
      -- "No subscribers for stream event"
      if s.receiverCount = 0 then some { s with loop := .waiting, handed := s.handed ++ [event] }
      else some { s with loop := .sending event }
    | _ => none
  | .broadcast, s =>
    match s.loop with
    | .sending event =>
      some { s with
        loop := .waiting
        handed := s.handed ++ [event]
        subscriptions := s.subscriptions.map (Subscription.deliver event) }
    | _ => none
  | .abort, s => if s.loop.isGone then none else some { s with loop := .aborted s.loop.held }
  | .subscribe, s =>
    some { s with subscriptions := s.subscriptions ++ [⟨some C.new, [], s.handed.length⟩] }
  | .receive i, s =>
    match s.subscriptions[i]? with
    | some ⟨some r, heard, since⟩ =>
      (C.recv r).map fun (h, r') =>
        { s with subscriptions := s.subscriptions.set i ⟨some r', heard ++ [h], since⟩ }
    | _ => none
  | .dropReceiver i, s =>
    match s.subscriptions[i]? with
    | some ⟨some _, heard, since⟩ =>
      some { s with subscriptions := s.subscriptions.set i ⟨none, heard, since⟩ }
    | _ => none

/-- The state after a sequence of steps, if each is possible when it comes. -/
def run : List Event → State K C → Option (State K C)
  | [], s => some s
  | e :: es, s => (step e s).bind (run es)

end Parties

/-! ## What a receiver gets -/

/-- What a receiver has heard, missed, and still to hear is what was handed on since it subscribed, and it
misses events only while at least `capacity` newer ones wait for it; of a dropped one, what it has heard is
a beginning of that. -/
structure Subscription.Gets {C : Channel StreamEvent} (capacity : Nat) (sub : Subscription C)
    (handed : List StreamEvent) : Prop where
  since : sub.since ≤ handed.length
  here : ∀ r, sub.receiver = some r → Follows C capacity r sub.heard (handed.drop sub.since)
  gone : sub.receiver = none → ∃ before, Covers sub.heard before ∧ before <+: handed.drop sub.since

section Gets

variable {C : Channel StreamEvent} {capacity : Nat} {sub : Subscription C} {handed : List StreamEvent}
  {event : StreamEvent} {r r' : C.Receiver} {h : Heard StreamEvent} {heard : List (Heard StreamEvent)}
  {since : Nat}

theorem gets_new (hC : C.Retains capacity) :
    Subscription.Gets (C := C) capacity ⟨some C.new, [], handed.length⟩ handed where
  since := Nat.le_refl _
  here := by
    rintro r hr
    cases hr
    rw [List.drop_length]
    exact follows_new hC
  gone := fun hnone => by cases hnone

/-- An event is handed on, to the receivers that are there. -/
theorem Subscription.Gets.deliver (hC : C.Retains capacity) (hg : sub.Gets capacity handed)
    (event : StreamEvent) : (sub.deliver event).Gets capacity (handed ++ [event]) where
  since := by
    rw [List.length_append]
    exact hg.since.trans (Nat.le_add_right _ _)
  here := by
    intro r hr
    obtain ⟨r₀, hr₀, rfl⟩ := Option.map_eq_some_iff.1 hr
    show Follows C capacity _ sub.heard ((handed ++ [event]).drop sub.since)
    rw [List.drop_append_of_le_length hg.since]
    exact (hg.here r₀ hr₀).deliver hC event
  gone := by
    intro hnone
    obtain ⟨before, hcovers, hprefix⟩ := hg.gone (Option.map_eq_none_iff.1 hnone)
    refine ⟨before, hcovers, ?_⟩
    show before <+: (handed ++ [event]).drop sub.since
    rw [List.drop_append_of_le_length hg.since]
    exact hprefix.trans (List.prefix_append _ _)

/-- An event that nobody is there for. -/
theorem Subscription.Gets.discard (hg : sub.Gets capacity handed) (hnone : sub.receiver = none)
    (event : StreamEvent) : sub.Gets capacity (handed ++ [event]) where
  since := by
    rw [List.length_append]
    exact hg.since.trans (Nat.le_add_right _ _)
  here := fun r hr => by
    rw [hnone] at hr
    cases hr
  gone := by
    intro _
    obtain ⟨before, hcovers, hprefix⟩ := hg.gone hnone
    rw [List.drop_append_of_le_length hg.since]
    exact ⟨before, hcovers, hprefix.trans (List.prefix_append _ _)⟩

theorem Subscription.Gets.recv (hC : C.Retains capacity)
    (hg : Subscription.Gets (C := C) capacity ⟨some r, heard, since⟩ handed)
    (hrecv : C.recv r = some (h, r')) :
    Subscription.Gets (C := C) capacity ⟨some r', heard ++ [h], since⟩ handed where
  since := hg.since
  here := by
    rintro r₁ hr₁
    cases hr₁
    exact (hg.here r rfl).recv hC hrecv
  gone := fun hnone => by cases hnone

/-- What was heard covers a beginning of what was handed on. -/
theorem Subscription.Gets.covers (hg : sub.Gets capacity handed) :
    ∃ before, Covers sub.heard before ∧ before <+: handed.drop sub.since := by
  cases hr : sub.receiver with
  | none => exact hg.gone hr
  | some r =>
    obtain ⟨before, gap, hcovers, -, hsent⟩ := (hg.here r hr).covers
    refine ⟨before, hcovers, ?_⟩
    rw [hsent, List.append_assoc]
    exact List.prefix_append _ _

theorem Subscription.Gets.drop
    (hg : Subscription.Gets (C := C) capacity ⟨some r, heard, since⟩ handed) :
    Subscription.Gets (C := C) capacity ⟨none, heard, since⟩ handed where
  since := hg.since
  here := fun _ hr => by cases hr
  gone := fun _ => hg.covers

/-- The values among what a receiver has heard. -/
structure Subscription.Hears {C : Channel StreamEvent} (sub : Subscription C) (handed : List StreamEvent) : Prop where
  /-- Nothing comes twice, or out of order. -/
  inOrder : (values sub.heard).Sublist (handed.drop sub.since)
  /-- A receiver that was never told of a gap has missed nothing so far. -/
  complete : (∀ n, Heard.lagged n ∉ sub.heard) → values sub.heard <+: handed.drop sub.since

theorem Subscription.Gets.hears (hg : sub.Gets capacity handed) : sub.Hears handed := by
  obtain ⟨before, hcovers, hprefix⟩ := hg.covers
  exact ⟨hcovers.sublist.trans hprefix.sublist, fun hgaps => hcovers.complete hgaps ▸ hprefix⟩

end Gets

/-! ## Every step -/

/-- What the broadcast guarantees: the senders' events keep their order on the way to the receivers, the
loop loses none of them, and each receiver gets what was handed on since it subscribed. -/
structure Delivered {K : Queue StreamEvent} {C : Channel StreamEvent} (senderCapacity capacity : Nat)
    (s : State K C) : Prop where
  order : s.accepted = s.handed ++ s.loop.held ++ K.waiting s.channel
  bound : (K.waiting s.channel).length ≤ senderCapacity
  each : ∀ sub ∈ s.subscriptions, sub.Gets capacity s.handed
  /-- A loop that ends by itself is done with every event. -/
  stopped : s.loop = .stopped → s.handed = s.accepted

section Steps

variable {K : Queue StreamEvent} {C : Channel StreamEvent} {senderCapacity capacity : Nat}
  {s s' : State K C} {event : StreamEvent} {channel : K.State}

theorem delivered_new (hK : K.Fifo senderCapacity) :
    Delivered senderCapacity capacity (State.new : State K C) where
  order := by
    show [] = [] ++ [] ++ K.waiting K.new
    rw [hK.new]
    rfl
  bound := by
    show (K.waiting K.new).length ≤ senderCapacity
    rw [hK.new]
    exact Nat.zero_le _
  each := fun _ h => absurd h List.not_mem_nil
  stopped := fun h => by cases h

/-- A successful `send` or `try_send`: the channel to the loop has taken the event. -/
theorem Delivered.accept (hK : K.Fifo senderCapacity) (h : Delivered senderCapacity capacity s)
    (hloop : s.loop.isGone = false) (hoffer : K.offer event s.channel = some channel) :
    Delivered senderCapacity capacity (s.accept event channel) where
  order := by
    show s.accepted ++ [event] = s.handed ++ s.loop.held ++ K.waiting channel
    rw [h.order, (hK.offer _ _ _ hoffer).1]
    simp
  bound := (hK.offer _ _ _ hoffer).2
  each := h.each
  stopped := by
    intro hstopped
    have : s.loop = .stopped := hstopped
    rw [this] at hloop
    cases hloop

/-- A step of one receiver. -/
theorem Delivered.set {i : Nat} {sub : Subscription C} (h : Delivered senderCapacity capacity s)
    (hsub : sub.Gets capacity s.handed) :
    Delivered senderCapacity capacity { s with subscriptions := s.subscriptions.set i sub } where
  order := h.order
  bound := h.bound
  each := fun sub' hmem => (List.mem_or_eq_of_mem_set hmem).elim (h.each sub') fun heq => heq ▸ hsub
  stopped := h.stopped

/-- The loop takes the next event, or ends where none waits. -/
theorem Delivered.recv (hK : K.Fifo senderCapacity) (h : Delivered senderCapacity capacity s)
    (hstep : step .recv s = some s') : Delivered senderCapacity capacity s' := by
  simp only [FanOut.step] at hstep
  split at hstep
  · rename_i hloop
    have horder := h.order
    rw [hloop] at horder
    split at hstep
    · -- the event moves from the channel into the hands of the loop
      rename_i event rest hrecv
      cases hstep
      have hwaiting := hK.recv _ _ _ hrecv
      refine ⟨?_, ?_, h.each, fun hstopped => by cases hstopped⟩
      · show s.accepted = s.handed ++ [event] ++ K.waiting rest
        rw [horder, hwaiting]
        simp [Loop.held]
      · have hbound := h.bound
        rw [hwaiting] at hbound
        exact (Nat.le_succ _).trans hbound
    · -- nothing waits and no sender is left: everything has been handed on
      rename_i hrecv
      obtain ⟨-, hs⟩ := Option.ite_none_right_eq_some.1 hstep
      cases hs
      have hwaiting := hK.empty _ hrecv
      have hdone : s.accepted = s.handed := by
        rw [horder, hwaiting]
        simp [Loop.held]
      refine ⟨?_, h.bound, h.each, fun _ => hdone.symm⟩
      show s.accepted = s.handed ++ [] ++ K.waiting s.channel
      rw [hdone, hwaiting]
      simp
  · cases hstep

/-- The loop looks for receivers, and is done with the event where there is none. -/
theorem Delivered.look (h : Delivered senderCapacity capacity s) (hstep : step .look s = some s') :
    Delivered senderCapacity capacity s' := by
  simp only [FanOut.step] at hstep
  split at hstep
  · rename_i event hloop
    have horder : s.accepted = s.handed ++ [event] ++ K.waiting s.channel := by
      rw [h.order, hloop, Loop.held]
    split at hstep
    · -- the event is discarded: every receiver there has been is dropped
      rename_i hnobody
      cases hstep
      refine ⟨by simpa [Loop.held] using horder, h.bound, fun sub hsub => ?_,
        fun hstopped => by cases hstopped⟩
      refine (h.each sub hsub).discard ?_ event
      have hnone := List.countP_eq_zero.1 hnobody sub hsub
      rwa [Option.not_isSome_iff_eq_none] at hnone
    · cases hstep
      exact ⟨horder, h.bound, h.each, fun hstopped => by cases hstopped⟩
  · cases hstep

/-- The loop hands an event on, to every receiver that is there. -/
theorem Delivered.broadcast (hC : C.Retains capacity) (h : Delivered senderCapacity capacity s)
    (hstep : step .broadcast s = some s') : Delivered senderCapacity capacity s' := by
  simp only [FanOut.step] at hstep
  split at hstep
  · rename_i event hloop
    cases hstep
    refine ⟨?_, h.bound, fun sub hsub => ?_, fun hstopped => by cases hstopped⟩
    · show s.accepted = s.handed ++ [event] ++ [] ++ K.waiting s.channel
      rw [h.order, hloop, Loop.held, List.append_nil]
    · obtain ⟨sub₀, hsub₀, rfl⟩ := List.mem_map.1 hsub
      exact (h.each sub₀ hsub₀).deliver hC event
  · cases hstep

/-- **Every step keeps it**, by the party that takes it. -/
theorem Delivered.step {e : Event} (hK : K.Fifo senderCapacity) (hC : C.Retains capacity)
    (h : Delivered senderCapacity capacity s) (hstep : step e s = some s') :
    Delivered senderCapacity capacity s' := by
  cases e with
  | cloneSender | dropSender =>
    obtain ⟨-, hs⟩ := Option.ite_none_right_eq_some.1 hstep
    cases hs
    exact ⟨h.order, h.bound, h.each, h.stopped⟩
  | send event =>
    obtain ⟨-, hs⟩ := Option.ite_none_right_eq_some.1 hstep
    unfold send at hs
    split at hs
    · -- the loop is gone: `ChannelClosed`
      cases hs
      exact h
    · rename_i hgone
      split at hs
      · rename_i channel hoffer
        cases hs
        exact h.accept hK (Bool.eq_false_iff.2 hgone) hoffer
      · cases hs
  | trySend event =>
    obtain ⟨-, hs⟩ := Option.ite_none_right_eq_some.1 hstep
    unfold trySend at hs
    split at hs
    · cases hs
      exact h
    · rename_i hgone
      -- unlike `send` it does not wait for room
      split at hs
      · rename_i channel hoffer
        cases hs
        exact h.accept hK (Bool.eq_false_iff.2 hgone) hoffer
      · cases hs
        exact h
  | recv => exact h.recv hK hstep
  | look => exact h.look hstep
  | broadcast => exact h.broadcast hC hstep
  | abort =>
    simp only [FanOut.step] at hstep
    split at hstep
    · cases hstep
    · cases hstep
      exact ⟨h.order, h.bound, h.each, fun hstopped => by cases hstopped⟩
  | subscribe =>
    cases hstep
    refine ⟨h.order, h.bound, fun sub hsub => ?_, h.stopped⟩
    rcases List.mem_append.1 hsub with hsub | hsub
    · exact h.each sub hsub
    · rw [List.mem_singleton.1 hsub]
      exact gets_new hC
  | receive i =>
    simp only [FanOut.step] at hstep
    split at hstep
    · rename_i r heard since hsub
      obtain ⟨⟨heard', r'⟩, hrecv, rfl⟩ := Option.map_eq_some_iff.1 hstep
      exact h.set ((h.each _ (List.mem_of_getElem? hsub)).recv hC hrecv)
    · cases hstep
  | dropReceiver i =>
    simp only [FanOut.step] at hstep
    split at hstep
    · rename_i r heard since hsub
      cases hstep
      exact h.set (h.each _ (List.mem_of_getElem? hsub)).drop
    · cases hstep

/-- By induction on the steps. -/
theorem Delivered.run {es : List Event} (hK : K.Fifo senderCapacity) (hC : C.Retains capacity)
    (h : Delivered senderCapacity capacity s) (hrun : run es s = some s') :
    Delivered senderCapacity capacity s' := by
  induction es generalizing s with
  | nil =>
    cases hrun
    exact h
  | cons e es ih =>
    obtain ⟨s₁, hstep, hrest⟩ := Option.bind_eq_some_iff.1 hrun
    exact ih (h.step hK hC hstep) hrest

end Steps

/-- **Every receiver gets what was handed on since it subscribed**, in the senders' order, up to the gaps
it is told of, in any run of any number of senders and receivers over channels with the laws. -/
theorem fan_out {K : Queue StreamEvent} {C : Channel StreamEvent} {senderCapacity capacity : Nat}
    {es : List Event} {s : State K C} (hK : K.Fifo senderCapacity) (hC : C.Retains capacity)
    (hrun : run es .new = some s) :
    Delivered senderCapacity capacity s ∧ ∀ sub ∈ s.subscriptions, sub.Hears s.handed := by
  have h := (delivered_new hK).run hK hC hrun
  exact ⟨h, fun sub hsub => (h.each sub hsub).hears⟩

/-- The progress event of a step. -/
def progress (currentStep : UInt32) : StreamEvent :=
  ⟨['r'], ['s'], 0, .progress, currentStep, 3, [], none, none, none, []⟩

/-- An event, on its way from a sender to the receivers. -/
def oneStep (currentStep : UInt32) : List Event :=
  [.send (progress currentStep), .recv, .look, .broadcast]

/-- Two receivers and five events: the first receiver takes every event before the next one comes, the
second one looks only at the end. -/
def fiveSteps : List Event :=
  [.subscribe, .subscribe] ++ (List.range 5).flatMap (fun i => oneStep (i + 1).toUInt32 ++ [.receive 0]) ++
    List.replicate 5 (.receive 1) ++ [.trySend (progress 6), .dropSender, .recv]

/-- What was heard, with the gaps. -/
def spell : Heard StreamEvent → Nat × Nat
  | .value event => (event.currentStep.toNat, 0)
  | .lagged n => (0, n)

/-- A capacity of three, which is rounded up to four slots: the second receiver is told of one missed
event and gets the last four. -/
theorem fan_out_fiveSteps : ∃ s : State (fifo 3) (ring 4), run fiveSteps .new = some s ∧
    s.subscriptions.map (fun sub => sub.heard.map spell) =
      [[(1, 0), (2, 0), (3, 0), (4, 0), (5, 0)], [(0, 1), (2, 0), (3, 0), (4, 0), (5, 0)]] ∧
    s.handed.length = 5 ∧ Delivered 3 3 s ∧ ∀ sub ∈ s.subscriptions, sub.Hears s.handed := by
  have hrun : (run fiveSteps (.new : State (fifo 3) (ring 4))).map (fun s =>
      (s.subscriptions.map fun sub => sub.heard.map spell, s.handed.length)) =
      some ([[(1, 0), (2, 0), (3, 0), (4, 0), (5, 0)], [(0, 1), (2, 0), (3, 0), (4, 0), (5, 0)]], 5) := by
    decide +kernel
  obtain ⟨s, hs, hheard⟩ := Option.map_eq_some_iff.1 hrun
  obtain ⟨hvalues, hhanded⟩ := Prod.mk.inj hheard
  exact ⟨s, hs, hvalues, hhanded,
    fan_out fifo_fifo (ring_retains (by decide) (by decide)) hs⟩

end Events.FanOut
