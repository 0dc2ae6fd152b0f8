import Nyarix.Api.RateLimit
import Nyarix.Api.Subscriptions
import Nyarix.Metrics

/-! Modules' contexts on one event bus: they publish, subscribe, cancel their subscriptions, and report
every capability that they deny. -/

namespace Nyarix
open Broadcast (Mailbox)

/-- A context, with whether it has the bus and the metric registry attached, and the subscriptions that
were made through it. -/
structure ModuleContext where
  io : IoContext
  eventBus : Bool
  metrics : Bool
  subscriptions : List Nat

structure Contexts where
  bus : EventBus
  registry : MetricRegistry
  contexts : List ModuleContext

inductive ContextCall where
  | emitEvent (event : Event)
  | onEvent (filter : EventFilter) (handlerTimeout : Option Duration)
  | cancelSubscriptions
  | requestCapability (metadata : ModuleMetadata) (capability : Capability)
  | check (call : IoCall)
  | checkBindAccess (now : Instant) (metadata : ModuleMetadata) (port : BitVec 16)

inductive ContextStep where
  | call (c : Nat) (call : ContextCall)
  | task (i : Nat) (step : EventTaskStep)

inductive ContextAnswer where
  | done
  | subscribed (subscribed : Bool)
  | checked (result : Except SecurityError Unit)

namespace Contexts

def new (slots : Nat) (contexts : List ModuleContext) : Contexts := ⟨.new slots, .new, contexts⟩

def busStep (s : Contexts) (step : BusStep) : Contexts := { s with bus := s.bus.step step }

def setContext (s : Contexts) (c : Nat) (ctx : ModuleContext) : Contexts :=
  { s with contexts := s.contexts.set c ctx }

def emitEvent (s : Contexts) (ctx : ModuleContext) (event : Event) : Contexts :=
  let s := if ctx.metrics then { s with registry := s.registry.counter "runtime" "event_rate" (·.increment 1) } else s
  if ctx.eventBus then s.busStep (.publish event) else s

def onEvent (s : Contexts) (c : Nat) (ctx : ModuleContext) (filter : EventFilter) (handlerTimeout : Option Duration) :
    Contexts × Bool :=
  if ctx.eventBus then
    let handle := s.bus.tasks.length
    ((s.busStep (.subscribe filter handlerTimeout)).setContext c
      { ctx with subscriptions := ctx.subscriptions ++ [handle] }, true)
  else (s, false)

def cancelSubscriptions (s : Contexts) (c : Nat) (ctx : ModuleContext) : Contexts :=
  (ctx.subscriptions.foldl (fun s handle => s.busStep (.task handle .abort)) s).setContext c
    { ctx with subscriptions := [] }

def requestCapability (s : Contexts) (ctx : ModuleContext) (metadata : ModuleMetadata) (capability : Capability) :
    Contexts × Except SecurityError Unit :=
  match ctx.io.requestCapability metadata capability with
  | .ok () => (s, .ok ())
  | .error e => (s.emitEvent ctx (.capabilityDenied metadata.name capability.lowercase), .error e)

def check (s : Contexts) (c : Nat) (ctx : ModuleContext) (call : IoCall) : Contexts × Except SecurityError Unit :=
  match s.requestCapability ctx call.metadata call.target.capability with
  | (s, .error e) => (s, .error e)
  | (s, .ok ()) =>
    let (result, io) := ctx.io.check call
    (s.setContext c { ctx with io := io }, result)

def checkBindAccess (s : Contexts) (c : Nat) (ctx : ModuleContext) (now : Instant) (metadata : ModuleMetadata)
    (port : BitVec 16) : Contexts × Except SecurityError Unit :=
  match s.requestCapability ctx metadata .network with
  | (s, .error e) => (s, .error e)
  | (s, .ok ()) =>
    match if port < 1024 then s.requestCapability ctx metadata .privilegedSockets else (s, .ok ()) with
    | (s, .error e) => (s, .error e)
    | (s, .ok ()) =>
      let (result, inner) := ctx.io.checkRateLimit now metadata
      (s.setContext c { ctx with io := { ctx.io with toRuntimeContext := inner } }, result)

def call (s : Contexts) (c : Nat) (ctx : ModuleContext) : ContextCall → Contexts × ContextAnswer
  | .emitEvent event => (s.emitEvent ctx event, .done)
  | .onEvent filter handlerTimeout =>
    let (s, subscribed) := s.onEvent c ctx filter handlerTimeout
    (s, .subscribed subscribed)
  | .cancelSubscriptions => (s.cancelSubscriptions c ctx, .done)
  | .requestCapability metadata capability =>
    let (s, result) := s.requestCapability ctx metadata capability
    (s, .checked result)
  | .check call =>
    let (s, result) := s.check c ctx call
    (s, .checked result)
  | .checkBindAccess now metadata port =>
    let (s, result) := s.checkBindAccess c ctx now metadata port
    (s, .checked result)

def step (s : Contexts) : ContextStep → Contexts × ContextAnswer
  | .call c call =>
    match s.contexts[c]? with
    | none => (s, .done)
    | some ctx => s.call c ctx call
  | .task i step => (s.busStep (.task i step), .done)

def run (s : Contexts) : List ContextStep → Contexts × List ContextAnswer
  | [] => (s, [])
  | step :: steps =>
    let (s, answer) := s.step step
    let (s, answers) := s.run steps
    (s, answer :: answers)

end Contexts

def SecurityError.events : SecurityError → List Event
  | .capabilityDenied module capability => [.capabilityDenied module capability]
  | _ => []

def ContextAnswer.denials : ContextAnswer → List Event
  | .checked (.error e) => e.events
  | _ => []

namespace Contexts

def denialSteps (ctx : ModuleContext) (result : Except SecurityError Unit) : List BusStep :=
  if ctx.eventBus then (ContextAnswer.checked result).denials.map .publish else []

def busCall (s : Contexts) (c : Nat) (ctx : ModuleContext) (call : ContextCall) : List BusStep :=
  match call with
  | .emitEvent event => if ctx.eventBus then [.publish event] else []
  | .onEvent filter handlerTimeout => if ctx.eventBus then [.subscribe filter handlerTimeout] else []
  | .cancelSubscriptions => ctx.subscriptions.map fun handle => .task handle .abort
  | .requestCapability metadata capability => denialSteps ctx (s.requestCapability ctx metadata capability).2
  | .check call => denialSteps ctx (s.check c ctx call).2
  | .checkBindAccess now metadata port => denialSteps ctx (s.checkBindAccess c ctx now metadata port).2

def busSteps (s : Contexts) : ContextStep → List BusStep
  | .call c call =>
    match s.contexts[c]? with
    | none => []
    | some ctx => s.busCall c ctx call
  | .task i step => [.task i step]

def busRun (s : Contexts) : List ContextStep → List BusStep
  | [] => []
  | step :: steps => s.busSteps step ++ (s.step step).1.busRun steps

variable {s : Contexts} {c : Nat} {ctx : ModuleContext}

theorem emitEvent_bus (s : Contexts) (ctx : ModuleContext) (event : Event) :
    (s.emitEvent ctx event).bus = s.bus.run (if ctx.eventBus then [.publish event] else []) := by
  unfold emitEvent busStep
  split_ifs <;> rfl

theorem onEvent_bus (s : Contexts) (c : Nat) (ctx : ModuleContext) (filter : EventFilter)
    (handlerTimeout : Option Duration) : (s.onEvent c ctx filter handlerTimeout).1.bus =
      s.bus.run (if ctx.eventBus then [.subscribe filter handlerTimeout] else []) := by
  unfold onEvent
  split_ifs <;> rfl

theorem abortAll_bus (handles : List Nat) (s : Contexts) :
    (handles.foldl (fun s handle => s.busStep (.task handle .abort)) s).bus =
      s.bus.run (handles.map fun handle => .task handle .abort) := by
  induction handles generalizing s with
  | nil => rfl
  | cons handle handles ih => exact ih (s.busStep (.task handle .abort))

theorem abortAll_contexts (handles : List Nat) (s : Contexts) :
    (handles.foldl (fun s handle => s.busStep (.task handle .abort)) s).contexts = s.contexts := by
  induction handles generalizing s with
  | nil => rfl
  | cons handle handles ih => exact ih (s.busStep (.task handle .abort))

section Checks
variable {metadata : ModuleMetadata} {capability : Capability}

theorem requestCapability_of_has (s : Contexts) (h : ctx.io.grantedCapabilities.has capability = true) :
    s.requestCapability ctx metadata capability = (s, .ok ()) := by
  rw [requestCapability, RuntimeContext.requestCapability, if_pos h]

theorem requestCapability_of_lacks (s : Contexts) (h : ¬ ctx.io.grantedCapabilities.has capability = true) :
    s.requestCapability ctx metadata capability =
      (s.emitEvent ctx (.capabilityDenied metadata.name capability.lowercase),
        .error (.capabilityDenied metadata.name capability.lowercase)) := by
  rw [requestCapability, RuntimeContext.requestCapability, if_neg h]

theorem denialSteps_of_silent {result : Except SecurityError Unit} (h : (ContextAnswer.checked result).denials = []) :
    denialSteps ctx result = [] := by
  rw [denialSteps, h, List.map_nil, ite_self]

theorem requestCapability_bus (s : Contexts) (ctx : ModuleContext) (metadata : ModuleMetadata) (capability : Capability) :
    (s.requestCapability ctx metadata capability).1.bus =
      s.bus.run (denialSteps ctx (s.requestCapability ctx metadata capability).2) := by
  by_cases hhas : ctx.io.grantedCapabilities.has capability = true
  · rw [requestCapability_of_has s hhas, denialSteps_of_silent rfl]
    rfl
  · rw [requestCapability_of_lacks s hhas]
    exact emitEvent_bus s ctx _

theorem checkRateLimit_silent (ctx : RuntimeContext) (now : Instant) (metadata : ModuleMetadata) :
    (ContextAnswer.checked (ctx.checkRateLimit now metadata).1).denials = [] := by
  unfold RuntimeContext.checkRateLimit
  cases ctx.ioRateLimiter with
  | none => rfl
  | some limiter =>
    dsimp only
    split_ifs <;> rfl

theorem check_silent {io : IoContext} {call : IoCall} (h : io.grantedCapabilities.has call.target.capability = true) :
    (ContextAnswer.checked (io.check call).1).denials = [] := by
  have hsilent := checkRateLimit_silent io.toRuntimeContext call.now call.metadata
  rw [IoContext.check_eq, IoContext.checkAccess, RuntimeContext.requestCapability, if_pos h]
  dsimp only
  rcases hrate : io.checkRateLimit call.now call.metadata with ⟨e | u, inner⟩
  · rw [hrate] at hsilent
    exact hsilent
  · dsimp only
    split_ifs <;> rfl

theorem check_bus (s : Contexts) (c : Nat) (ctx : ModuleContext) (call : IoCall) :
    (s.check c ctx call).1.bus = s.bus.run (denialSteps ctx (s.check c ctx call).2) := by
  unfold check
  by_cases hhas : ctx.io.grantedCapabilities.has call.target.capability = true
  · rw [requestCapability_of_has s hhas]
    dsimp only
    rw [denialSteps_of_silent (check_silent hhas)]
    rfl
  · rw [requestCapability_of_lacks s hhas]
    exact emitEvent_bus s ctx _

theorem checkBindAccess_bus (s : Contexts) (c : Nat) (ctx : ModuleContext) (now : Instant) (metadata : ModuleMetadata)
    (port : BitVec 16) : (s.checkBindAccess c ctx now metadata port).1.bus =
      s.bus.run (denialSteps ctx (s.checkBindAccess c ctx now metadata port).2) := by
  have hsilent := checkRateLimit_silent ctx.io.toRuntimeContext now metadata
  unfold checkBindAccess
  by_cases hnetwork : ctx.io.grantedCapabilities.has .network = true
  · rw [requestCapability_of_has s hnetwork]
    dsimp only
    split_ifs with hport
    · by_cases hprivileged : ctx.io.grantedCapabilities.has .privilegedSockets = true
      · rw [requestCapability_of_has s hprivileged]
        dsimp only
        rw [denialSteps_of_silent hsilent]
        rfl
      · rw [requestCapability_of_lacks s hprivileged]
        exact emitEvent_bus s ctx _
    · dsimp only
      rw [denialSteps_of_silent hsilent]
      rfl
  · rw [requestCapability_of_lacks s hnetwork]
    exact emitEvent_bus s ctx _

end Checks

theorem call_bus (s : Contexts) (c : Nat) (ctx : ModuleContext) (call : ContextCall) :
    (s.call c ctx call).1.bus = s.bus.run (s.busCall c ctx call) := by
  cases call with
  | emitEvent event => exact emitEvent_bus s ctx event
  | onEvent filter handlerTimeout => exact onEvent_bus s c ctx filter handlerTimeout
  | cancelSubscriptions => exact abortAll_bus ctx.subscriptions s
  | requestCapability metadata capability => exact requestCapability_bus s ctx metadata capability
  | check call => exact check_bus s c ctx call
  | checkBindAccess now metadata port => exact checkBindAccess_bus s c ctx now metadata port

theorem step_bus (s : Contexts) (step : ContextStep) : (s.step step).1.bus = s.bus.run (s.busSteps step) := by
  cases step with
  | call c call =>
    cases hctx : s.contexts[c]? with
    | none => simp only [Contexts.step, busSteps, hctx]; rfl
    | some ctx =>
      simp only [Contexts.step, busSteps, hctx]
      exact call_bus s c ctx call
  | task i step => rfl

theorem run_bus (s : Contexts) (steps : List ContextStep) : (s.run steps).1.bus = s.bus.run (s.busRun steps) := by
  induction steps generalizing s with
  | nil => rfl
  | cons step steps ih =>
    rw [busRun, EventBus.run, List.foldl_append]
    change _ = (s.bus.run (s.busSteps step)).run _
    rw [← step_bus]
    exact ih (s.step step).1

end Contexts

namespace EventTask
variable {R : Type} {t : EventTask R}

theorem aborted_step (recv : R → Broadcast.Recv Event × R) (closed : Bool) (h : t.aborted = true) (step : EventTaskStep) :
    (t.step recv closed step).aborted = true := by
  cases step with
  | poll => unfold EventTask.step; dsimp only; split_ifs <;> exact h
  | recv =>
    unfold EventTask.step
    cases t.receiver with
    | none => exact h
    | some c =>
      dsimp only
      split_ifs
      · unfold receive
        rcases recv c with ⟨_ | _ | _, next⟩ <;> dsimp only <;> (try split_ifs) <;> exact h
      · exact h
  | finish timedOut =>
    unfold EventTask.step
    cases t.handling with
    | none => exact h
    | some event => dsimp only; split_ifs <;> exact h
  | suspend => unfold EventTask.step; dsimp only; split_ifs <;> exact h
  | panic => unfold EventTask.step; dsimp only; split_ifs <;> exact h
  | abort => rfl

theorem filter_step (recv : R → Broadcast.Recv Event × R) (closed : Bool) (t : EventTask R) (step : EventTaskStep) :
    (t.step recv closed step).filter = t.filter := by
  cases step with
  | poll => unfold EventTask.step; dsimp only; split_ifs <;> rfl
  | recv =>
    unfold EventTask.step
    cases t.receiver with
    | none => rfl
    | some c =>
      dsimp only
      split_ifs
      · unfold receive
        rcases recv c with ⟨_ | _ | _, next⟩ <;> dsimp only <;> (try split_ifs) <;> rfl
      · rfl
  | finish timedOut =>
    unfold EventTask.step
    cases t.handling with
    | none => rfl
    | some event => dsimp only; split_ifs <;> rfl
  | suspend => unfold EventTask.step; dsimp only; split_ifs <;> rfl
  | panic => unfold EventTask.step; dsimp only; split_ifs <;> rfl
  | abort => rfl

/-- An aborted task that is not being polled is silent: its handler is not called again. -/
structure Silent (t : EventTask R) : Prop where
  aborted : t.aborted = true
  idle : t.polled = false

theorem Silent.step (h : t.Silent) (recv : R → Broadcast.Recv Event × R) (closed : Bool) (step : EventTaskStep) :
    (t.step recv closed step).Silent ∧ (t.step recv closed step).handled = t.handled ∧
      (t.receiver = none ∨ step = .poll → (t.step recv closed step).receiver = none) := by
  obtain ⟨haborted, hidle⟩ := h
  cases step with
  | poll =>
    cases hreceiver : t.receiver with
    | none => simp [EventTask.step, hreceiver, Silent.mk haborted hidle]
    | some c =>
      simp only [EventTask.step, hreceiver, hidle, haborted, Option.isNone_some, Bool.or_false, Bool.false_eq_true, if_false,
        if_true]
      exact ⟨⟨haborted, rfl⟩, rfl, fun _ => rfl⟩
  | recv =>
    have hsame : t.step recv closed .recv = t := by
      unfold EventTask.step
      cases t.receiver <;> simp [hidle]
    rw [hsame]
    exact ⟨⟨haborted, hidle⟩, rfl, fun hnone => hnone.resolve_right (by simp)⟩
  | finish timedOut =>
    have hsame : t.step recv closed (.finish timedOut) = t := by
      unfold EventTask.step
      cases t.handling <;> simp [hidle]
    rw [hsame]
    exact ⟨⟨haborted, hidle⟩, rfl, fun hnone => hnone.resolve_right (by simp)⟩
  | suspend =>
    unfold EventTask.step
    dsimp only
    split_ifs
    · exact ⟨⟨haborted, rfl⟩, rfl, fun hnone => hnone.resolve_right (by simp)⟩
    · exact ⟨⟨haborted, hidle⟩, rfl, fun hnone => hnone.resolve_right (by simp)⟩
  | panic =>
    have hsame : t.step recv closed .panic = t := by simp [EventTask.step, hidle]
    rw [hsame]
    exact ⟨⟨haborted, hidle⟩, rfl, fun hnone => hnone.resolve_right (by simp)⟩
  | abort => exact ⟨⟨rfl, hidle⟩, rfl, fun hnone => hnone.resolve_right (by simp)⟩

end EventTask

namespace EventBus
variable {bus : EventBus} {i : Nat} {t : EventTask Nat}

theorem task_step (ht : bus.tasks[i]? = some t) (step : BusStep) :
    (∃ s, step = .task i s ∧ (bus.step step).tasks[i]? = some (t.step bus.sender.recv bus.closed s)) ∨
      (∀ s, step ≠ .task i s) ∧ (bus.step step).tasks[i]? = some t := by
  cases step with
  | publish event =>
    refine .inr ⟨fun s => by simp, ?_⟩
    unfold EventBus.step publish
    dsimp only
    split_ifs <;> exact ht
  | subscribe filter handlerTimeout =>
    refine .inr ⟨fun s => by simp, ?_⟩
    unfold EventBus.step subscribe
    dsimp only
    split_ifs
    · exact ht
    · exact (List.getElem?_append_left (List.getElem?_eq_some_iff.mp ht).1).trans ht
  | close => exact .inr ⟨fun s => by simp, ht⟩
  | task j s =>
    by_cases hij : j = i
    · subst hij
      refine .inl ⟨s, rfl, ?_⟩
      rw [EventBus.step, List.getElem?_modify_eq, ht]
      rfl
    · refine .inr ⟨fun s => by simp [hij], ?_⟩
      rw [EventBus.step, List.getElem?_modify_ne _ _ hij, ht]

theorem aborted_run (ht : bus.tasks[i]? = some t) (haborted : t.aborted = true) (steps : List BusStep) :
    ∃ t', (bus.run steps).tasks[i]? = some t' ∧ t'.aborted = true := by
  induction steps generalizing bus t with
  | nil => exact ⟨t, ht, haborted⟩
  | cons step steps ih =>
    rcases task_step ht step with ⟨s, -, hstep⟩ | ⟨-, hsame⟩
    · exact ih hstep (t.aborted_step _ _ haborted s)
    · exact ih hsame haborted

theorem task_run (ht : bus.tasks[i]? = some t) (steps : List BusStep) :
    ∃ t', (bus.run steps).tasks[i]? = some t' ∧ t'.filter = t.filter := by
  induction steps generalizing bus t with
  | nil => exact ⟨t, ht, rfl⟩
  | cons step steps ih =>
    rcases task_step ht step with ⟨s, -, hstep⟩ | ⟨-, hsame⟩
    · obtain ⟨t', ht', hfilter⟩ := ih hstep
      exact ⟨t', ht', hfilter.trans (t.filter_step _ _ s)⟩
    · exact ih hsame

theorem silent_run (ht : bus.tasks[i]? = some t) (h : t.Silent) (steps : List BusStep) :
    ∃ t', (bus.run steps).tasks[i]? = some t' ∧ t'.handled = t.handled ∧
      (t.receiver = none ∨ .task i .poll ∈ steps → t'.receiver = none) := by
  induction steps generalizing bus t with
  | nil => exact ⟨t, ht, rfl, fun hnone => hnone.resolve_right List.not_mem_nil⟩
  | cons step steps ih =>
    rcases task_step ht step with ⟨s, rfl, hstep⟩ | ⟨hother, hsame⟩
    · obtain ⟨hsilent, hhandled, hgone⟩ := h.step bus.sender.recv bus.closed s
      obtain ⟨t', ht', hhandled', hgone'⟩ := ih hstep hsilent
      refine ⟨t', ht', hhandled'.trans hhandled, fun hnone => hgone' ?_⟩
      rcases hnone with hnone | hpoll
      · exact .inl (hgone (.inl hnone))
      · rcases List.mem_cons.mp hpoll with hhead | htail
        · exact .inl (hgone (.inr (by simpa using hhead.symm)))
        · exact .inr htail
    · obtain ⟨t', ht', hhandled, hgone⟩ := ih hsame h
      refine ⟨t', ht', hhandled, fun hnone => hgone (hnone.imp_right fun hmem => ?_)⟩
      exact (List.mem_cons.mp hmem).resolve_left fun hhead => hother .poll hhead.symm

theorem abort_run (ht : bus.tasks[i]? = some t) {handles : List Nat} (hi : i ∈ handles) :
    ∃ t', (bus.run (handles.map fun handle => .task handle .abort)).tasks[i]? = some t' ∧ t'.aborted = true := by
  induction handles generalizing bus t with
  | nil => cases hi
  | cons handle handles ih =>
    rcases task_step ht (.task handle .abort) with ⟨s, hs, hstep⟩ | ⟨hother, hsame⟩
    · obtain ⟨-, rfl⟩ : handle = i ∧ .abort = s := by simpa using hs
      exact aborted_run hstep rfl _
    · rcases List.mem_cons.mp hi with rfl | hi
      · exact absurd rfl (hother .abort)
      · exact ih hsame hi

theorem subscribe_tasks (bus : EventBus) (filter : EventFilter) (handlerTimeout : Option Duration) :
    (bus.subscribe filter handlerTimeout).tasks[bus.tasks.length]? =
      some (.spawn filter handlerTimeout bus.sender.tail) := List.getElem?_concat_length

theorem closed_step {step : BusStep} (h : step ≠ .close) : (bus.step step).closed = bus.closed := by
  cases step with
  | publish event =>
    unfold EventBus.step publish
    dsimp only
    split_ifs <;> rfl
  | subscribe filter handlerTimeout =>
    unfold EventBus.step
    dsimp only
    split_ifs <;> rfl
  | close => exact absurd rfl h
  | task j step => rfl

theorem closed_run {steps : List BusStep} (h : .close ∉ steps) : (bus.run steps).closed = bus.closed := by
  induction steps generalizing bus with
  | nil => rfl
  | cons step steps ih =>
    rw [List.mem_cons, not_or] at h
    exact (ih h.2).trans (closed_step (Ne.symm h.1))

end EventBus

namespace Contexts
variable {s : Contexts} {c i : Nat} {ctx : ModuleContext}

/-- Subscription `i` was made through context `c`: the context has its handle, or has aborted it. -/
structure Made (s : Contexts) (c i : Nat) : Prop where
  task : ∃ t, s.bus.tasks[i]? = some t
  held : (∃ ctx, s.contexts[c]? = some ctx ∧ i ∈ ctx.subscriptions) ∨
    ∃ t, s.bus.tasks[i]? = some t ∧ t.aborted = true

theorem emitEvent_contexts (s : Contexts) (ctx : ModuleContext) (event : Event) :
    (s.emitEvent ctx event).contexts = s.contexts := by
  unfold emitEvent busStep
  dsimp only
  split_ifs <;> rfl

theorem requestCapability_contexts (s : Contexts) (ctx : ModuleContext) (metadata : ModuleMetadata)
    (capability : Capability) : (s.requestCapability ctx metadata capability).1.contexts = s.contexts := by
  by_cases hhas : ctx.io.grantedCapabilities.has capability = true
  · rw [requestCapability_of_has s hhas]
  · rw [requestCapability_of_lacks s hhas, emitEvent_contexts]

theorem check_contexts (s : Contexts) (c : Nat) (ctx : ModuleContext) (call : IoCall) :
    (s.check c ctx call).1.contexts = s.contexts ∨
      ∃ io, (s.check c ctx call).1.contexts = s.contexts.set c { ctx with io := io } := by
  unfold check
  by_cases hhas : ctx.io.grantedCapabilities.has call.target.capability = true
  · rw [requestCapability_of_has s hhas]
    exact .inr ⟨_, rfl⟩
  · rw [requestCapability_of_lacks s hhas]
    exact .inl (emitEvent_contexts s ctx _)

theorem checkBindAccess_contexts (s : Contexts) (c : Nat) (ctx : ModuleContext) (now : Instant)
    (metadata : ModuleMetadata) (port : BitVec 16) :
    (s.checkBindAccess c ctx now metadata port).1.contexts = s.contexts ∨
      ∃ io, (s.checkBindAccess c ctx now metadata port).1.contexts = s.contexts.set c { ctx with io := io } := by
  unfold checkBindAccess
  by_cases hnetwork : ctx.io.grantedCapabilities.has .network = true
  · rw [requestCapability_of_has s hnetwork]
    dsimp only
    split_ifs with hport
    · by_cases hprivileged : ctx.io.grantedCapabilities.has .privilegedSockets = true
      · rw [requestCapability_of_has s hprivileged]
        exact .inr ⟨_, rfl⟩
      · rw [requestCapability_of_lacks s hprivileged]
        exact .inl (emitEvent_contexts s ctx _)
    · exact .inr ⟨_, rfl⟩
  · rw [requestCapability_of_lacks s hnetwork]
    exact .inl (emitEvent_contexts s ctx _)

theorem set_self (hctx : s.contexts[c]? = some ctx) : s.contexts = s.contexts.set c ctx := by
  obtain ⟨hc, rfl⟩ := List.getElem?_eq_some_iff.mp hctx
  exact (List.set_getElem_self hc).symm

theorem call_contexts (hctx : s.contexts[c]? = some ctx) (call : ContextCall) : ∃ ctx',
    (s.call c ctx call).1.contexts = s.contexts.set c ctx' ∧ ctx'.eventBus = ctx.eventBus ∧
      (ctx'.subscriptions = ctx.subscriptions ∨ ctx'.subscriptions = ctx.subscriptions ++ [s.bus.tasks.length] ∨
        call = .cancelSubscriptions) := by
  have hsame : s.contexts = s.contexts.set c ctx := set_self hctx
  cases call with
  | emitEvent event => exact ⟨ctx, (emitEvent_contexts s ctx event).trans hsame, rfl, .inl rfl⟩
  | onEvent filter handlerTimeout =>
    unfold Contexts.call onEvent
    dsimp only
    split_ifs
    · exact ⟨_, rfl, rfl, .inr (.inl rfl)⟩
    · exact ⟨ctx, hsame, rfl, .inl rfl⟩
  | cancelSubscriptions =>
    refine ⟨{ ctx with subscriptions := [] }, ?_, rfl, .inr (.inr rfl)⟩
    change (ctx.subscriptions.foldl _ s).contexts.set c _ = _
    rw [abortAll_contexts]
  | requestCapability metadata capability =>
    exact ⟨ctx, (requestCapability_contexts s ctx metadata capability).trans hsame, rfl, .inl rfl⟩
  | check call =>
    rcases check_contexts s c ctx call with hkept | ⟨io, hset⟩
    · exact ⟨ctx, hkept.trans hsame, rfl, .inl rfl⟩
    · exact ⟨_, hset, rfl, .inl rfl⟩
  | checkBindAccess now metadata port =>
    rcases checkBindAccess_contexts s c ctx now metadata port with hkept | ⟨io, hset⟩
    · exact ⟨ctx, hkept.trans hsame, rfl, .inl rfl⟩
    · exact ⟨_, hset, rfl, .inl rfl⟩

theorem Made.of_aborted {t : EventTask Nat} (ht : s.bus.tasks[i]? = some t) (haborted : t.aborted = true)
    (step : ContextStep) : (s.step step).1.Made c i := by
  have hbus := step_bus s step
  obtain ⟨t', ht', haborted'⟩ := EventBus.aborted_run ht haborted (s.busSteps step)
  rw [← hbus] at ht'
  exact ⟨⟨t', ht'⟩, .inr ⟨t', ht', haborted'⟩⟩

theorem Made.step (h : s.Made c i) (step : ContextStep) : (s.step step).1.Made c i := by
  obtain ⟨⟨t, ht⟩, ⟨ctx, hctx, hi⟩ | ⟨t', ht', haborted⟩⟩ := h
  · have hbus := step_bus s step
    obtain ⟨t', ht', -⟩ := EventBus.task_run ht (s.busSteps step)
    rw [← hbus] at ht'
    cases step with
    | task j step => exact ⟨⟨t', ht'⟩, .inl ⟨ctx, hctx, hi⟩⟩
    | call c' call =>
      cases hctx' : s.contexts[c']? with
      | none =>
        have hstep : (s.step (.call c' call)).1 = s := by simp only [Contexts.step, hctx']
        rw [hstep]
        exact ⟨⟨t, ht⟩, .inl ⟨ctx, hctx, hi⟩⟩
      | some own =>
        have hstep : (s.step (.call c' call)).1 = (s.call c' own call).1 := by simp only [Contexts.step, hctx']
        rw [hstep] at ht' ⊢
        obtain ⟨own', hset, -, hsubscriptions⟩ := call_contexts hctx' call
        by_cases hc : c' = c
        · subst hc
          obtain rfl : own = ctx := Option.some.inj (hctx'.symm.trans hctx)
          have hget : (s.call c' own call).1.contexts[c']? = some own' := by
            rw [hset, List.getElem?_set_self (List.getElem?_eq_some_iff.mp hctx).1]
          rcases hsubscriptions with hkept | hmore | rfl
          · exact ⟨⟨t', ht'⟩, .inl ⟨own', hget, hkept ▸ hi⟩⟩
          · exact ⟨⟨t', ht'⟩, .inl ⟨own', hget, hmore ▸ List.mem_append_left _ hi⟩⟩
          · -- the handle is given up only to abort its task
            have haborted := EventBus.abort_run ht hi
            rw [← abortAll_bus] at haborted
            exact ⟨⟨t', ht'⟩, .inr haborted⟩
        · refine ⟨⟨t', ht'⟩, .inl ⟨ctx, ?_, hi⟩⟩
          rw [hset, List.getElem?_set_ne hc, hctx]
  · exact .of_aborted ht' haborted step

theorem Made.run (h : s.Made c i) (steps : List ContextStep) : (s.run steps).1.Made c i := by
  induction steps generalizing s with
  | nil => exact h
  | cons step steps ih => exact ih (h.step step)

theorem Made.cancel (h : s.Made c i) :
    ∃ t, (s.step (.call c .cancelSubscriptions)).1.bus.tasks[i]? = some t ∧ t.aborted = true := by
  obtain ⟨⟨t, ht⟩, ⟨ctx, hctx, hi⟩ | ⟨t', ht', haborted⟩⟩ := h
  · have haborted := EventBus.abort_run ht hi
    rw [← abortAll_bus] at haborted
    simp only [Contexts.step, hctx]
    exact haborted
  · rw [step_bus]
    exact EventBus.aborted_run ht' haborted _

theorem run_append (s : Contexts) (steps steps' : List ContextStep) :
    (s.run (steps ++ steps')).1 = ((s.run steps).1.run steps').1 := by
  induction steps generalizing s with
  | nil => rfl
  | cons step steps ih => exact ih (s.step step).1

theorem close_notMem_denialSteps (ctx : ModuleContext) (result : Except SecurityError Unit) :
    .close ∉ denialSteps ctx result := by
  unfold denialSteps
  split_ifs <;> simp

theorem close_notMem_busSteps (s : Contexts) (step : ContextStep) : .close ∉ s.busSteps step := by
  cases step with
  | task i step => simp [busSteps]
  | call c call =>
    cases hctx : s.contexts[c]? with
    | none => simp [busSteps, hctx]
    | some ctx =>
      simp only [busSteps, hctx]
      cases call with
      | emitEvent event => unfold busCall; split_ifs <;> simp
      | onEvent filter handlerTimeout => unfold busCall; split_ifs <;> simp
      | cancelSubscriptions => simp [busCall]
      | requestCapability metadata capability => exact close_notMem_denialSteps ctx _
      | check call => exact close_notMem_denialSteps ctx _
      | checkBindAccess now metadata port => exact close_notMem_denialSteps ctx _

theorem closed_run (s : Contexts) (steps : List ContextStep) : (s.run steps).1.bus.closed = s.bus.closed := by
  induction steps generalizing s with
  | nil => rfl
  | cons step steps ih =>
    refine (ih (s.step step).1).trans ?_
    rw [step_bus]
    exact EventBus.closed_run (close_notMem_busSteps s step)

def attached (s : Contexts) (c : Nat) : Bool := s.contexts[c]?.any ModuleContext.eventBus

theorem attached_step (s : Contexts) (step : ContextStep) (c : Nat) : (s.step step).1.attached c = s.attached c := by
  cases step with
  | task i step => rfl
  | call c' call =>
    cases hctx' : s.contexts[c']? with
    | none => simp only [Contexts.step, hctx']
    | some own =>
      obtain ⟨own', hset, hsame, -⟩ := call_contexts hctx' call
      simp only [Contexts.step, hctx', attached, hset]
      by_cases hc : c' = c
      · subst hc
        rw [List.getElem?_set_self (List.getElem?_eq_some_iff.mp hctx').1, hctx', Option.any_some, Option.any_some, hsame]
      · rw [List.getElem?_set_ne hc]

theorem attached_run (s : Contexts) (steps : List ContextStep) (c : Nat) :
    (s.run steps).1.attached c = s.attached c := by
  induction steps generalizing s with
  | nil => rfl
  | cons step steps ih => exact (ih (s.step step).1).trans (attached_step s step c)

theorem onEvent_made (hopen : s.bus.closed = false) (h : s.attached c = true) (filter : EventFilter)
    (handlerTimeout : Option Duration) :
    (s.step (.call c (.onEvent filter handlerTimeout))).1.bus = s.bus.subscribe filter handlerTimeout ∧
      (s.step (.call c (.onEvent filter handlerTimeout))).1.Made c s.bus.tasks.length := by
  obtain ⟨ctx, hctx, hbus⟩ := (Option.any_eq_true _ _).mp h
  have hlt := (List.getElem?_eq_some_iff.mp hctx).1
  have hsubscribe : s.bus.step (.subscribe filter handlerTimeout) = s.bus.subscribe filter handlerTimeout := by
    rw [EventBus.step, hopen]
    rfl
  simp only [Contexts.step, hctx, call, onEvent, hbus, if_true, setContext, busStep, hsubscribe]
  exact ⟨trivial, ⟨_, EventBus.subscribe_tasks s.bus filter handlerTimeout⟩,
    .inl ⟨_, List.getElem?_set_self hlt, List.mem_append_right _ (List.mem_singleton_self _)⟩⟩

theorem poll_mem_busRun {steps : List ContextStep} (h : .task i .poll ∈ steps) (s : Contexts) :
    .task i .poll ∈ s.busRun steps := by
  induction steps generalizing s with
  | nil => cases h
  | cons step steps ih =>
    rcases List.mem_cons.mp h with rfl | htail
    · exact List.mem_append_left _ (List.mem_singleton_self _)
    · exact List.mem_append_right _ (ih htail _)

/-- A subscription made through a context is aborted by the context's `cancel_subscriptions`. From the
moment its task is not being polled its handler is not called again, and the next poll is the end of it. -/
theorem cancelled_subscription_is_silent {slots : Nat} {contexts : List ModuleContext} {c : Nat}
    (h : (new slots contexts).attached c = true) (filter : EventFilter) (handlerTimeout : Option Duration)
    (before between after later : List ContextStep) :
    let s := ((new slots contexts).run before).1
    let i := s.bus.tasks.length
    let cancelled := (s.run (.call c (.onEvent filter handlerTimeout) :: between ++
      .call c .cancelSubscriptions :: after)).1
    ∃ t, cancelled.bus.tasks[i]? = some t ∧ t.aborted = true ∧ (t.polled = false →
      ∃ t', (cancelled.run later).1.bus.tasks[i]? = some t' ∧ t'.handled = t.handled ∧
        (.task i .poll ∈ later → t'.receiver = none)) := by
  intro s i cancelled
  have hopen : s.bus.closed = false := closed_run (new slots contexts) before
  have hattached : s.attached c = true := (attached_run (new slots contexts) before c).trans h
  obtain ⟨-, hmade⟩ := onEvent_made hopen hattached filter handlerTimeout
  obtain ⟨t, ht, haborted⟩ := (hmade.run between).cancel
  obtain ⟨t', ht', haborted'⟩ := EventBus.aborted_run ht haborted
    (busRun _ after)
  rw [← run_bus] at ht'
  have hcancelled : cancelled.bus.tasks[i]? = some t' := by
    rw [← ht']
    exact congrArg (fun s => s.bus.tasks[i]?) (run_append _ between (.call c .cancelSubscriptions :: after))
  refine ⟨t', hcancelled, haborted', fun hidle => ?_⟩
  obtain ⟨t'', ht'', hhandled, hgone⟩ := EventBus.silent_run hcancelled ⟨haborted', hidle⟩ (cancelled.busRun later)
  rw [← run_bus] at ht''
  exact ⟨t'', ht'', hhandled, fun hpoll => hgone (.inr (poll_mem_busRun hpoll cancelled))⟩

def bareContext : ModuleContext := ⟨⟨.empty, .denyAll⟩, true, false, []⟩

theorem cancelled_subscription_is_silent_bare :
    let s := (new 4 [bareContext]).run []
    let cancelled := (s.1.run (.call 0 (.onEvent .all none) :: [.call 0 (.emitEvent (.custom "a"))] ++
      .call 0 .cancelSubscriptions :: [])).1
    ∃ t, cancelled.bus.tasks[0]? = some t ∧ t.aborted = true ∧ (t.polled = false → ∃ t',
      (cancelled.run [.call 0 (.emitEvent (.custom "b")), .task 0 .poll]).1.bus.tasks[0]? = some t' ∧
        t'.handled = t.handled ∧ (.task 0 .poll ∈ [ContextStep.call 0 (.emitEvent (.custom "b")), .task 0 .poll] →
          t'.receiver = none)) :=
  cancelled_subscription_is_silent (c := 0) rfl .all none [] [.call 0 (.emitEvent (.custom "a"))] [] _

end Contexts

def BusStep.published : BusStep → List Event
  | .publish event => [event]
  | _ => []

namespace EventBus
variable {bus : EventBus} {i : Nat} {t : EventTask Nat}

theorem gone_run (ht : bus.tasks[i]? = some t) (h : t.receiver = none) (steps : List BusStep) :
    ∃ t', (bus.run steps).tasks[i]? = some t' ∧ t'.receiver = none := by
  induction steps generalizing bus t with
  | nil => exact ⟨t, ht, h⟩
  | cons step steps ih =>
    rcases task_step ht step with ⟨s, -, hstep⟩ | ⟨-, hsame⟩
    · refine ih hstep ?_
      rcases t.receiver_step bus.sender.recv bus.closed s with hkept | hdropped | ⟨c, hc, -⟩
      · rw [hkept, h]
      · exact hdropped
      · rw [h] at hc
        cases hc
    · exact ih hsame h

theorem offered_eq_published (ht : bus.tasks[i]? = some t) {steps : List BusStep} (hopen : bus.closed = false)
    (hsteps : .close ∉ steps) {t' : EventTask Nat} (ht' : (bus.run steps).tasks[i]? = some t')
    (halive : t'.receiver.isSome) : bus.offered i steps = steps.flatMap BusStep.published := by
  induction steps generalizing bus t with
  | nil => rfl
  | cons step steps ih =>
    rw [List.mem_cons, not_or] at hsteps
    have hoffer : bus.view.offer i step = step.published := by
      cases step with
      | publish event =>
        have hsome : t.receiver.isSome := by
          by_contra hnone
          obtain ⟨u, hu, hgone⟩ := gone_run ht (by simpa using hnone) (.publish event :: steps)
          rw [ht'] at hu
          rw [Option.some.inj hu, hgone] at halive
          cases halive
        obtain ⟨next, hnext⟩ := Option.isSome_iff_exists.mp hsome
        simp [Mailboxes.offer, Mailboxes.receiver, view, hopen, ht, EventTask.through, hnext, BusStep.published]
      | subscribe filter handlerTimeout => rfl
      | close => rfl
      | task j step => rfl
    obtain ⟨u, hu, -⟩ := task_run ht [step]
    rw [offered, hoffer, List.flatMap_cons]
    exact congrArg _ (ih hu ((closed_step (Ne.symm hsteps.1)).trans hopen) hsteps.2 ht')

theorem ledger_subscribe (h : bus.Valid) (hopen : bus.closed = false) (filter : EventFilter)
    (handlerTimeout : Option Duration) (steps : List BusStep) {t' : EventTask Nat}
    (ht' : ((bus.subscribe filter handlerTimeout).run steps).tasks[bus.tasks.length]? = some t') :
    Ledger (t'.through ((bus.subscribe filter handlerTimeout).run steps).sender.mailbox)
      ((bus.subscribe filter handlerTimeout).run steps).closed
      (steps.any (BusStep.kills bus.tasks.length))
      ((bus.subscribe filter handlerTimeout).offered bus.tasks.length steps)
      ((bus.subscribe filter handlerTimeout).overwritten bus.tasks.length steps) := by
  have hvalid : (bus.subscribe filter handlerTimeout).Valid := by
    have hstep := h.step (.subscribe filter handlerTimeout)
    rw [EventBus.step, hopen] at hstep
    exact hstep
  have hbooks : (bus.subscribe filter handlerTimeout).view.Books bus.tasks.length false [] [] := by
    constructor
    · intro t ht
      have hmailbox : bus.sender.mailbox bus.sender.tail = .empty := Broadcast.Ring.mailbox_tail h.sender
      simp only [view, List.getElem?_map, subscribe_tasks, Option.map_some, Option.some.injEq] at ht
      rw [← ht]
      simp only [EventTask.through, EventTask.spawn, Option.map_some, subscribe, hmailbox]
      exact Ledger.spawn filter handlerTimeout bus.closed
    · exact fun _ => ⟨rfl, rfl⟩
  have hrun := hbooks.run steps
  rw [← view_run hvalid, ← offered_view hvalid, ← overwritten_view hvalid, Bool.false_or, List.nil_append,
    List.nil_append] at hrun
  refine hrun.ledger _ ?_
  simp only [view, List.getElem?_map, ht', Option.map_some]

end EventBus

def auditor : EventFilter := .only [.capabilityDenied]

/-- The call publishes an event of a denial that there was not. -/
def ContextStep.forges : ContextStep → Bool
  | .call _ (.emitEvent event) => event.kind == .capabilityDenied
  | _ => false

namespace Contexts
variable {s : Contexts}

theorem filter_denials (answer : ContextAnswer) : answer.denials.filter auditor.matches = answer.denials := by
  cases answer with
  | done => rfl
  | subscribed subscribed => rfl
  | checked result => rcases result with e | u <;> [cases e <;> rfl; rfl]

theorem published_denialSteps {ctx : ModuleContext} (h : ctx.eventBus = true) (result : Except SecurityError Unit) :
    ((denialSteps ctx result).flatMap BusStep.published).filter auditor.matches =
      (ContextAnswer.checked result).denials := by
  rw [denialSteps, if_pos h, List.flatMap_map]
  exact (congrArg (List.filter _) (List.flatMap_singleton' _)).trans (filter_denials _)

theorem published_busSteps (hall : ∀ c < s.contexts.length, s.attached c = true) {step : ContextStep}
    (hforged : step.forges = false) :
    ((s.busSteps step).flatMap BusStep.published).filter auditor.matches = (s.step step).2.denials := by
  cases step with
  | task i step => rfl
  | call c call =>
    cases hctx : s.contexts[c]? with
    | none => simp only [busSteps, Contexts.step, hctx]; rfl
    | some ctx =>
      have hbus : ctx.eventBus = true := by
        have hattached := hall c (List.getElem?_eq_some_iff.mp hctx).1
        rwa [attached, hctx] at hattached
      simp only [busSteps, Contexts.step, hctx]
      cases call with
      | emitEvent event =>
        have hkind : auditor.matches event = false := by
          rw [ContextStep.forges, beq_eq_false_iff_ne] at hforged
          simp [auditor, EventFilter.matches, hforged]
        simp [busCall, hbus, BusStep.published, hkind, Contexts.call, ContextAnswer.denials]
      | onEvent filter handlerTimeout => simp [busCall, hbus, BusStep.published, Contexts.call, ContextAnswer.denials]
      | cancelSubscriptions =>
        simp only [busCall, List.flatMap_map, BusStep.published, Contexts.call, ContextAnswer.denials]
        simp
      | requestCapability metadata capability => exact published_denialSteps hbus _
      | check call => exact published_denialSteps hbus _
      | checkBindAccess now metadata port => exact published_denialSteps hbus _

theorem length_step (s : Contexts) (step : ContextStep) : (s.step step).1.contexts.length = s.contexts.length := by
  cases step with
  | task i step => rfl
  | call c call =>
    cases hctx : s.contexts[c]? with
    | none => simp only [Contexts.step, hctx]
    | some ctx =>
      obtain ⟨ctx', hset, -⟩ := call_contexts hctx call
      simp only [Contexts.step, hctx, hset, List.length_set]

theorem published_busRun (hall : ∀ c < s.contexts.length, s.attached c = true) {steps : List ContextStep}
    (hforged : ∀ step ∈ steps, step.forges = false) :
    ((s.busRun steps).flatMap BusStep.published).filter auditor.matches =
      (s.run steps).2.flatMap ContextAnswer.denials := by
  induction steps generalizing s with
  | nil => rfl
  | cons step steps ih =>
    have hrest := ih (s := (s.step step).1)
      (fun c hc => (attached_step s step c).trans (hall c (length_step s step ▸ hc)))
      (fun step hstep => hforged step (List.mem_cons_of_mem _ hstep))
    rw [busRun, List.flatMap_append, List.filter_append, hrest,
      published_busSteps hall (hforged step List.mem_cons_self)]
    rfl

theorem close_notMem_busRun (s : Contexts) (steps : List ContextStep) : .close ∉ s.busRun steps := by
  induction steps generalizing s with
  | nil => exact List.not_mem_nil
  | cons step steps ih =>
    rw [busRun, List.mem_append, not_or]
    exact ⟨close_notMem_busSteps s step, ih _⟩

theorem valid_run {slots : Nat} (hslots : 0 < slots) (contexts : List ModuleContext) (steps : List ContextStep) :
    ((new slots contexts).run steps).1.bus.Valid := by
  rw [run_bus]
  exact (EventBus.valid_new hslots).run _

theorem attached_of_run {slots : Nat} {contexts : List ModuleContext} (hall : ∀ ctx ∈ contexts, ctx.eventBus = true)
    (steps : List ContextStep) : ∀ c < ((new slots contexts).run steps).1.contexts.length,
      ((new slots contexts).run steps).1.attached c = true := by
  intro c hc
  have hlength : ((new slots contexts).run steps).1.contexts.length = contexts.length := by
    clear hc
    suffices h : ∀ s : Contexts, (s.run steps).1.contexts.length = s.contexts.length from h _
    intro s
    induction steps generalizing s with
    | nil => rfl
    | cons step steps ih => exact (ih _).trans (length_step s step)
  rw [attached_run, attached]
  rw [hlength] at hc
  have hget : (new slots contexts).contexts[c]? = some contexts[c] := List.getElem?_eq_getElem hc
  rw [hget, Option.any_some]
  exact hall _ (List.getElem_mem hc)

/-- Every capability that a module is denied comes to whoever listens for denials, each once and in their
order, as long as the listener keeps up and nobody forges a denial. -/
theorem denials_reach_the_auditor {slots : Nat} (hslots : 0 < slots) {contexts : List ModuleContext}
    (hall : ∀ ctx ∈ contexts, ctx.eventBus = true) {c : Nat} (hc : c < contexts.length)
    (handlerTimeout : Option Duration) (before : List ContextStep) {steps : List ContextStep}
    (hforged : ∀ step ∈ steps, step.forges = false) :
    let s := ((new slots contexts).run before).1
    let i := s.bus.tasks.length
    let audited := (s.step (.call c (.onEvent auditor handlerTimeout))).1
    ∀ t, (audited.run steps).1.bus.view.tasks[i]? = some t → t.receiver.isSome →
      (∀ event ∈ audited.bus.overwritten i (audited.busRun steps), auditor.matches event = false) →
      t.handled ++ t.unread.filter auditor.matches = (audited.run steps).2.flatMap ContextAnswer.denials := by
  intro s i audited t ht halive hkept
  have hopen : s.bus.closed = false := closed_run (new slots contexts) before
  have hattached := @attached_of_run slots contexts hall before
  have hs : s.attached c = true := by
    have hc' : (new slots contexts).attached c = true := by
      have hget : (new slots contexts).contexts[c]? = some contexts[c] := List.getElem?_eq_getElem hc
      rw [attached, hget, Option.any_some]
      exact hall _ (List.getElem_mem hc)
    exact (attached_run (new slots contexts) before c).trans hc'
  -- the subscription is the next task of the bus, and keeps its filter for good
  obtain ⟨hbus, -⟩ := onEvent_made hopen hs auditor handlerTimeout
  have hvalid : s.bus.Valid := valid_run hslots contexts before
  have hspawn : audited.bus.tasks[i]? = some (.spawn auditor handlerTimeout s.bus.sender.tail) := by
    rw [hbus]
    exact EventBus.subscribe_tasks s.bus auditor handlerTimeout
  have hrun := run_bus audited steps
  obtain ⟨u, hu, hfilter⟩ := EventBus.task_run hspawn (audited.busRun steps)
  have hthrough : t = u.through (audited.run steps).1.bus.sender.mailbox := by
    have hview : (audited.run steps).1.bus.view.tasks[i]? =
        some (u.through (audited.run steps).1.bus.sender.mailbox) := by
      rw [← hrun] at hu
      simp only [EventBus.view, List.getElem?_map, hu, Option.map_some]
    exact Option.some.inj (ht.symm.trans hview)
  have hoffered : audited.bus.offered i (audited.busRun steps) =
      (audited.busRun steps).flatMap BusStep.published := by
    have haudited : audited.bus.closed = false := by
      rw [hbus]
      exact hopen
    refine EventBus.offered_eq_published hspawn haudited (close_notMem_busRun audited steps) hu ?_
    rw [hthrough] at halive
    exact Option.isSome_map.symm.trans halive
  -- its books are those of a task of the bus, and what was overwritten of it is no denial
  have hledger : Ledger t (audited.bus.run (audited.busRun steps)).closed
      ((audited.busRun steps).any (BusStep.kills i)) (audited.bus.offered i (audited.busRun steps))
      (audited.bus.overwritten i (audited.busRun steps)) := by
    rw [hthrough, hrun]
    rw [hbus] at hu ⊢
    exact EventBus.ledger_subscribe hvalid hopen auditor handlerTimeout _ hu
  have htfilter : t.filter = auditor := by
    rw [hthrough]
    exact hfilter
  have hcomplete := (hledger.complete_iff (.inl halive)).mpr (htfilter.symm ▸ hkept)
  rw [htfilter, hoffered] at hcomplete
  rw [hcomplete]
  -- what the contexts publish of denials is what their answers show
  refine published_busRun (fun c hc => ?_) hforged
  exact (attached_step s _ c).trans (hattached c (length_step s _ ▸ hc))

def quic : ModuleMetadata := ⟨"quic", .unbounded⟩

def denied : List ContextStep := [.call 1 (.requestCapability quic .network), .task 0 .poll, .task 0 .recv]

theorem denials_reach_the_auditor_quic :
    let s := ((new 4 [bareContext, bareContext]).run []).1
    let audited := (s.step (.call 0 (.onEvent auditor none))).1
    ∃ t, (audited.run denied).1.bus.view.tasks[0]? = some t ∧
      t.handled ++ t.unread.filter auditor.matches = (audited.run denied).2.flatMap ContextAnswer.denials ∧
      t.handled = [.capabilityDenied "quic" "network"] := by
  have hall : ∀ ctx ∈ [bareContext, bareContext], ctx.eventBus = true := by simp [bareContext]
  have hforged : ∀ step ∈ denied, step.forges = false := by simp [denied, ContextStep.forges]
  have hslots : 0 < 4 := by decide
  have hlistener : 0 < [bareContext, bareContext].length := Nat.zero_lt_two
  refine ⟨_, rfl, denials_reach_the_auditor hslots hall hlistener none [] hforged _ rfl rfl ?_, rfl⟩
  intro event hevent
  cases hevent

end Contexts
end Nyarix
