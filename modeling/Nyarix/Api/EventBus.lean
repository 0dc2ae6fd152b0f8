import Nyarix.Lib.Broadcast
import Nyarix.Packet

/-! The event bus. Every subscription is a task of its own that receives from the one channel, hands
what its filter lets through to its handler, and lives until it is aborted or the bus is gone. -/

namespace Nyarix
open Broadcast (Mailbox Recv)

inductive Health where
  | healthy
  | degraded (reason : String)
  | unhealthy (reason : String)
  deriving DecidableEq, Repr

inductive Event where
  | moduleLoaded (name : String)
  | moduleUnloaded (name : String)
  | flowBuilt (flowId : FlowId)
  | flowChanged (flowId : FlowId)
  | handshakeStarted (sessionId : SessionId)
  | handshakeCompleted (sessionId : SessionId)
  | packetDropped (reason : String)
  | transportSwitched (source target : String)
  | healthChanged (module : String) (health : Health)
  | rekeyStarted (sessionId : SessionId)
  | rekeyCompleted (sessionId : SessionId)
  | profileApplied (profile : String)
  | healthDegraded (module : String) (health : Health)
  | healthRestored (module : String)
  | updateAvailable (version : String)
  | capabilityDenied (module capability : String)
  | custom (name : String)
  deriving DecidableEq, Repr

inductive EventKind where
  | moduleLoaded | moduleUnloaded | flowBuilt | flowChanged | handshakeStarted | handshakeCompleted
  | packetDropped | transportSwitched | healthChanged | rekeyStarted | rekeyCompleted | profileApplied
  | healthDegraded | healthRestored | updateAvailable | capabilityDenied | custom
  deriving DecidableEq, Repr

def Event.kind : Event → EventKind
  | .moduleLoaded _ => .moduleLoaded
  | .moduleUnloaded _ => .moduleUnloaded
  | .flowBuilt _ => .flowBuilt
  | .flowChanged _ => .flowChanged
  | .handshakeStarted _ => .handshakeStarted
  | .handshakeCompleted _ => .handshakeCompleted
  | .packetDropped _ => .packetDropped
  | .transportSwitched _ _ => .transportSwitched
  | .healthChanged _ _ => .healthChanged
  | .rekeyStarted _ => .rekeyStarted
  | .rekeyCompleted _ => .rekeyCompleted
  | .profileApplied _ => .profileApplied
  | .healthDegraded _ _ => .healthDegraded
  | .healthRestored _ => .healthRestored
  | .updateAvailable _ => .updateAvailable
  | .capabilityDenied _ _ => .capabilityDenied
  | .custom _ => .custom

inductive EventFilter where
  | all
  | only (kinds : List EventKind)
  deriving DecidableEq, Repr

def EventFilter.matches : EventFilter → Event → Bool
  | .all, _ => true
  | .only kinds, event => kinds.contains event.kind

/-- The task of one subscription, with what it receives through. Only an asynchronous handler has a
timeout. -/
structure EventTask (R : Type) where
  filter : EventFilter
  handlerTimeout : Option Duration
  receiver : Option R
  /-- Whether the task is being polled. -/
  polled : Bool
  aborted : Bool
  /-- The event that the handler is working on. -/
  handling : Option Event
  /-- The calls of the handler so far. -/
  handled : List Event
  /-- The warnings logged. -/
  timedOut : List EventKind
  deriving DecidableEq, Repr

/-- What can happen to a task. It suspends when it is out of budget or when its handler awaits. -/
inductive EventTaskStep where
  | poll
  | recv
  | finish (timedOut : Bool)
  | suspend
  | panic
  | abort
  deriving DecidableEq, Repr

namespace EventTask
variable {R : Type}

def spawn (filter : EventFilter) (handlerTimeout : Option Duration) (receiver : R) : EventTask R :=
  ⟨filter, handlerTimeout, some receiver, false, false, none, [], []⟩

def finished (t : EventTask R) : EventTask R := { t with receiver := none, polled := false, handling := none }

/-- The body of the loop: `recv().await` and a `match` on what it returns. -/
def receive (recv : R → Recv Event × R) (closed : Bool) (t : EventTask R) (receiver : R) : EventTask R :=
  match recv receiver with
  | (.value event, receiver) =>
    if t.filter.matches event then
      { t with receiver := some receiver, handling := some event, handled := t.handled ++ [event] }
    else { t with receiver := some receiver }
  | (.lagged, receiver) => { t with receiver := some receiver }
  | (.empty, receiver) => if closed then t.finished else { t with receiver := some receiver, polled := false }

/-- A step that the task is not at is no step. -/
def step (recv : R → Recv Event × R) (closed : Bool) (t : EventTask R) : EventTaskStep → EventTask R
  | .poll =>
    if t.receiver.isNone || t.polled then t
    else if t.aborted then t.finished
    else { t with polled := true }
  | .recv =>
    match t.receiver with
    | none => t
    | some receiver => if t.polled && t.handling.isNone then t.receive recv closed receiver else t
  | .finish timedOut =>
    match t.handling with
    | none => t
    | some event =>
      if t.polled then
        { t with
          handling := none
          timedOut := if timedOut && t.handlerTimeout.isSome then t.timedOut ++ [event.kind] else t.timedOut }
      else t
  | .suspend => if t.handling.isNone || t.handlerTimeout.isSome then { t with polled := false } else t
  | .panic => if t.polled && t.handling.isSome then t.finished else t
  | .abort => { t with aborted := true }

end EventTask

inductive BusStep where
  | publish (event : Event)
  | subscribe (filter : EventFilter) (handlerTimeout : Option Duration)
  | close
  | task (i : Nat) (step : EventTaskStep)
  deriving DecidableEq, Repr

/-- The channel, the subscriptions in the order they were made, and whether a sender is left. -/
structure EventBus where
  sender : Broadcast.Ring Event
  tasks : List (EventTask Nat)
  closed : Bool
  deriving DecidableEq, Repr

namespace EventBus

def new (slots : Nat) : EventBus := ⟨.new slots, [], false⟩

/-- The channel takes an event only if there is a receiver. -/
def publish (bus : EventBus) (event : Event) : EventBus :=
  if bus.tasks.any fun t => t.receiver.isSome then { bus with sender := bus.sender.send event } else bus

def subscribe (bus : EventBus) (filter : EventFilter) (handlerTimeout : Option Duration) : EventBus :=
  { bus with tasks := bus.tasks ++ [.spawn filter handlerTimeout bus.sender.tail] }

def step (bus : EventBus) : BusStep → EventBus
  | .publish event => if bus.closed then bus else bus.publish event
  | .subscribe filter handlerTimeout => if bus.closed then bus else bus.subscribe filter handlerTimeout
  | .close => { bus with closed := true }
  | .task i step => { bus with tasks := bus.tasks.modify i fun t => t.step bus.sender.recv bus.closed step }

def run (bus : EventBus) (steps : List BusStep) : EventBus := steps.foldl step bus

end EventBus

/-- Subscriptions that have nothing in common: each has its own mailbox, and takes the events for itself. -/
structure Mailboxes where
  slots : Nat
  tasks : List (EventTask (Mailbox Event))
  closed : Bool
  deriving DecidableEq, Repr

def EventTask.deliver (slots : Nat) (event : Event) (t : EventTask (Mailbox Event)) : EventTask (Mailbox Event) :=
  { t with receiver := t.receiver.map fun m => m.send slots event }

namespace Mailboxes

def new (slots : Nat) : Mailboxes := ⟨slots, [], false⟩

def step (s : Mailboxes) : BusStep → Mailboxes
  | .publish event => if s.closed then s else { s with tasks := s.tasks.map (EventTask.deliver s.slots event) }
  | .subscribe filter handlerTimeout =>
    if s.closed then s else { s with tasks := s.tasks ++ [.spawn filter handlerTimeout .empty] }
  | .close => { s with closed := true }
  | .task i step => { s with tasks := s.tasks.modify i fun t => t.step Mailbox.recv s.closed step }

def run (s : Mailboxes) (steps : List BusStep) : Mailboxes := steps.foldl step s

end Mailboxes

namespace EventTask
variable {R S : Type}

def through (f : R → S) (t : EventTask R) : EventTask S := { t with receiver := t.receiver.map f }

section Through
variable {f : R → S} {recv : R → Recv Event × R} {recv' : S → Recv Event × S} (closed : Bool) (t : EventTask R)

theorem through_receive (hrecv : ∀ c, (recv c).1 = (recv' (f c)).1 ∧ f (recv c).2 = (recv' (f c)).2) (c : R) :
    (t.receive recv closed c).through f = (t.through f).receive recv' closed (f c) := by
  obtain ⟨hanswer, hnext⟩ := hrecv c
  have hpair : recv' (f c) = ((recv c).1, f (recv c).2) := Prod.ext hanswer.symm hnext.symm
  unfold receive
  rw [hpair]
  rcases recv c with ⟨answer, next⟩
  cases answer with
  | value event => exact apply_ite (through f) _ _ _
  | lagged => rfl
  | empty => exact apply_ite (through f) _ _ _

theorem through_step (hrecv : ∀ c, (recv c).1 = (recv' (f c)).1 ∧ f (recv c).2 = (recv' (f c)).2)
    (step : EventTaskStep) :
    (t.step recv closed step).through f = (t.through f).step recv' closed step := by
  cases step with
  | poll =>
    have hreceiver : (t.through f).receiver.isNone = t.receiver.isNone := Option.isNone_map
    simp only [EventTask.step, hreceiver]
    rw [apply_ite (through f), apply_ite (through f)]
    rfl
  | recv =>
    cases hreceiver : t.receiver with
    | none => simp only [EventTask.step, through, hreceiver, Option.map_none]
    | some c =>
      simp only [EventTask.step, hreceiver]
      rw [apply_ite (through f), through_receive closed t hrecv c]
      simp only [through, hreceiver, Option.map_some]
  | finish timedOut =>
    cases hhandling : t.handling with
    | none => simp only [EventTask.step, through, hhandling]
    | some event =>
      simp only [EventTask.step, hhandling]
      rw [apply_ite (through f)]
      simp only [through, hhandling]
  | suspend => exact apply_ite (through f) _ _ _
  | panic => exact apply_ite (through f) _ _ _
  | abort => rfl

end Through

variable (recv : R → Recv Event × R) (closed : Bool) (t : EventTask R)

theorem receiver_receive (c : R) :
    (t.receive recv closed c).receiver = none ∨ (t.receive recv closed c).receiver = some (recv c).2 := by
  unfold receive
  rcases recv c with ⟨answer, next⟩
  cases answer with
  | value event => right; dsimp only; split_ifs <;> rfl
  | lagged => exact .inr rfl
  | empty =>
    cases closed with
    | true => exact .inl rfl
    | false => exact .inr rfl

theorem receiver_step (step : EventTaskStep) : (t.step recv closed step).receiver = t.receiver ∨
    (t.step recv closed step).receiver = none ∨
    ∃ c, t.receiver = some c ∧ (t.step recv closed step).receiver = some (recv c).2 := by
  cases step with
  | poll => unfold EventTask.step; dsimp only; split_ifs <;> simp [finished]
  | recv =>
    unfold EventTask.step
    cases hreceiver : t.receiver with
    | none => exact .inl hreceiver
    | some c =>
      dsimp only
      split_ifs
      · exact .inr ((receiver_receive recv closed t c).imp id fun h => ⟨c, rfl, h⟩)
      · exact .inl hreceiver
  | finish timedOut =>
    unfold EventTask.step
    cases t.handling with
    | none => exact .inl rfl
    | some event => left; dsimp only; split_ifs <;> rfl
  | suspend => left; unfold EventTask.step; dsimp only; split_ifs <;> rfl
  | panic => unfold EventTask.step; dsimp only; split_ifs <;> simp [finished]
  | abort => exact .inl rfl

def Behind (tail : Nat) (t : EventTask Nat) : Prop := ∀ next ∈ t.receiver, next ≤ tail

theorem Behind.step {ring : Broadcast.Ring Event} (hring : ring.Valid) {t : EventTask Nat} (h : t.Behind ring.tail) (closed : Bool)
    (step : EventTaskStep) : (t.step ring.recv closed step).Behind ring.tail := by
  intro next hnext
  rcases receiver_step ring.recv closed t step with hkept | hdropped | ⟨c, hc, hreceived⟩
  · rw [hkept] at hnext
    exact h next hnext
  · rw [hdropped] at hnext
    cases hnext
  · rw [hreceived] at hnext
    obtain rfl : (ring.recv c).2 = next := Option.some.inj hnext
    exact ring.recv_le_tail hring (h c hc)

end EventTask

namespace EventBus

structure Valid (bus : EventBus) : Prop where
  sender : bus.sender.Valid
  behind : ∀ t ∈ bus.tasks, t.Behind bus.sender.tail

theorem valid_new {slots : Nat} (h : 0 < slots) : (new slots).Valid := ⟨Broadcast.Ring.valid_new h, fun _ ht => nomatch ht⟩

variable {bus : EventBus}

theorem Valid.step (h : bus.Valid) (step : BusStep) : (bus.step step).Valid := by
  cases step with
  | publish event =>
    unfold EventBus.step publish
    dsimp only
    split_ifs
    · exact h
    · exact ⟨h.sender.send event, fun t ht next hnext => Nat.le_succ_of_le (h.behind t ht next hnext)⟩
    · exact h
  | subscribe filter handlerTimeout =>
    unfold EventBus.step subscribe
    dsimp only
    split_ifs
    · exact h
    · refine ⟨h.sender, fun t ht => ?_⟩
      rcases List.mem_append.mp ht with hold | hnew
      · exact h.behind t hold
      · rw [List.mem_singleton.mp hnew]
        exact fun next hnext => Nat.le_of_eq (Option.some.inj hnext).symm
  | close => exact ⟨h.sender, h.behind⟩
  | task i step =>
    refine ⟨h.sender, fun t ht => ?_⟩
    obtain ⟨j, hj⟩ := List.mem_iff_getElem?.mp ht
    have hget : (bus.tasks.modify i fun t => t.step bus.sender.recv bus.closed step)[j]? = some t := hj
    rw [List.getElem?_modify] at hget
    obtain ⟨u, hu, hut⟩ := Option.map_eq_some_iff.mp hget
    have hbehind := h.behind u (List.mem_of_getElem? hu)
    rw [← hut]
    split_ifs
    · exact hbehind.step h.sender bus.closed step
    · exact hbehind

def view (bus : EventBus) : Mailboxes :=
  ⟨bus.sender.slots, bus.tasks.map fun t => t.through bus.sender.mailbox, bus.closed⟩

theorem view_publish (h : bus.Valid) (event : Event) : (bus.publish event).view =
    { bus.view with tasks := bus.view.tasks.map (EventTask.deliver bus.sender.slots event) } := by
  unfold publish
  split_ifs with hany
  · simp only [view, List.map_map, Mailboxes.mk.injEq, and_true]
    refine ⟨rfl, List.map_congr_left fun t ht => ?_⟩
    simp only [Function.comp, EventTask.through, EventTask.deliver, Option.map_map]
    congr 1
    apply Option.map_congr
    intro next hnext
    exact Broadcast.Ring.mailbox_send h.sender (h.behind t ht next hnext) event
  · -- nobody is there to be sent anything
    simp only [view, List.map_map, Mailboxes.mk.injEq, true_and, and_true]
    refine List.map_congr_left fun t ht => ?_
    have hnone : t.receiver = none := by
      by_contra hsome
      exact hany (List.any_eq_true.mpr ⟨t, ht, Option.isSome_iff_ne_none.mpr hsome⟩)
    simp only [Function.comp, EventTask.through, EventTask.deliver, hnone, Option.map_none]

theorem view_step (h : bus.Valid) (step : BusStep) : (bus.step step).view = bus.view.step step := by
  cases step with
  | publish event =>
    unfold EventBus.step Mailboxes.step
    dsimp only
    rw [apply_ite view, view_publish h]
    rfl
  | subscribe filter handlerTimeout =>
    have hmailbox : bus.sender.mailbox bus.sender.tail = .empty := Broadcast.Ring.mailbox_tail h.sender
    unfold EventBus.step Mailboxes.step
    dsimp only
    rw [apply_ite view]
    simp only [view, subscribe, List.map_append, List.map_singleton, EventTask.through, EventTask.spawn, Option.map_some,
      hmailbox]
    rfl
  | close => rfl
  | task i step =>
    simp only [EventBus.step, Mailboxes.step, view, Mailboxes.mk.injEq, true_and, and_true]
    apply List.ext_getElem?
    intro j
    rw [List.getElem?_map, List.getElem?_modify, List.getElem?_modify, List.getElem?_map]
    cases bus.tasks[j]? with
    | none => rfl
    | some t =>
      by_cases hij : i = j
      · subst hij
        simp [EventTask.through_step bus.closed t bus.sender.mailbox_recv]
      · simp [hij]

theorem run_append (bus : EventBus) (steps steps' : List BusStep) :
    bus.run (steps ++ steps') = (bus.run steps).run steps' := List.foldl_append

theorem Valid.run (h : bus.Valid) (steps : List BusStep) : (bus.run steps).Valid := by
  induction steps generalizing bus with
  | nil => exact h
  | cons step steps ih => exact ih (h.step step)

theorem view_new (slots : Nat) : (new slots).view = Mailboxes.new slots := rfl

theorem view_run (h : bus.Valid) (steps : List BusStep) : (bus.run steps).view = bus.view.run steps := by
  induction steps generalizing bus with
  | nil => rfl
  | cons step steps ih =>
    have hstep := ih (h.step step)
    rw [view_step h] at hstep
    exact hstep

/-- One ring for all subscriptions serves them as a mailbox for each would: every one of them receives
what it would receive alone, and lags when its own mailbox would have overflowed. -/
theorem event_bus_is_mailboxes {slots : Nat} (h : 0 < slots) (steps : List BusStep) :
    ((new slots).run steps).view = (Mailboxes.new slots).run steps :=
  view_run (valid_new h) steps

def overtaken : List BusStep :=
  [.subscribe .all none, .publish (.custom "a"), .publish (.custom "b"), .task 0 .poll, .task 0 .recv, .task 0 .recv]

theorem event_bus_is_mailboxes_overtaken : ((new 1).run overtaken).view = (Mailboxes.new 1).run overtaken :=
  event_bus_is_mailboxes Nat.zero_lt_one overtaken

end EventBus
end Nyarix
