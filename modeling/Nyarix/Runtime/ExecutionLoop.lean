import Nyarix.Execution.Sequential
import Nyarix.Lib.Transition
import Nyarix.Runtime.Pause

/-! The execution loop as a transition system: the loop polls the future it waits on, and the
other parties send packets, pause and resume, cancel, receive, close channels and edit the graph
behind its lock. The graph and the walk of a packet through it are parameters. -/

namespace Nyarix

/-- What the loop calls with the graph locked, and what other parties do to the graph. -/
structure Engine (G K X : Type) where
  initializeAllNodes : G → G × Unwind (Except ModuleError Unit)
  /-- the walk of one packet with these readings of the clock; no outcome if they end before it -/
  execute : K → G → Packet → G × Option Outcome
  shutdownAllNodes : G → G × Unwind (Except ModuleError Unit)
  edit : X → G → G
  needsLock : X → Bool

inductive Stage where
  | main | drain
  deriving DecidableEq

inductive Phase where
  | init
  | head
  | select
  /-- in `process_one`, for the graph's lock -/
  | lock (stage : Stage) (packet : Packet)
  /-- the walk of a packet goes on and on -/
  | running (stage : Stage) (packet : Packet)
  /-- in `process_one`, for space in the sink -/
  | deliver (stage : Stage) (output : Packet)
  | drain
  | shutdown
  | returned (result : Unwind (Except ModuleError Unit))

def Phase.leftMain : Phase → Bool
  | .lock .drain _ | .running .drain _ | .deliver .drain _ | .drain | .shutdown | .returned _ => true
  | _ => false

def Phase.ended : Phase → Bool
  | .shutdown | .returned _ => true
  | _ => false

def Phase.inHand : Phase → List Packet
  | .lock _ packet | .running _ packet => [packet]
  | _ => []

def Phase.outbound : Phase → List Packet
  | .deliver _ output => [output]
  | _ => []

def Stage.next : Stage → Phase
  | .main => .head
  | .drain => .drain

def Stage.stop : Stage → Phase
  | .main => .drain
  | .drain => .shutdown

def Stage.after (stage : Stage) (outcome : Outcome) : Phase :=
  match outcome.output with
  | some output => .deliver stage output
  | none => stage.next

namespace Stage

@[simp] theorem inHand_next (stage : Stage) : stage.next.inHand = [] := by cases stage <;> rfl

@[simp] theorem outbound_next (stage : Stage) : stage.next.outbound = [] := by cases stage <;> rfl

@[simp] theorem ended_next (stage : Stage) : stage.next.ended = false := by cases stage <;> rfl

@[simp] theorem inHand_after (stage : Stage) (outcome : Outcome) : (stage.after outcome).inHand = [] := by
  unfold after
  cases outcome.output with
  | none => exact inHand_next stage
  | some => rfl

@[simp] theorem outbound_after (stage : Stage) (outcome : Outcome) :
    (stage.after outcome).outbound = outcome.output.toList := by
  unfold after
  cases outcome.output with
  | none => exact outbound_next stage
  | some => rfl

@[simp] theorem ended_after (stage : Stage) (outcome : Outcome) : (stage.after outcome).ended = false := by
  unfold after
  cases outcome.output with
  | none => exact ended_next stage
  | some => rfl

theorem leftMain_after (outcome : Outcome) : (drain.after outcome).leftMain = true := by
  unfold after
  cases outcome.output <;> rfl

end Stage

/-- The loop and what it shares with others, with the packets sent to it, taken, executed and
delivered so far. -/
structure RunState (G : Type) where
  graph : G
  locked : Bool
  source : Channel Packet
  sourceOpen : Bool
  sink : Channel Packet
  sinkOpen : Bool
  cancelled : Bool
  pause : GraphPause
  phase : Phase
  sent : List Packet
  taken : List Packet
  executed : List (Packet × Outcome)
  delivered : List Packet

inductive Own (K : Type) where
  | poll
  | execute (readings : K)

inductive Outside (X : Type) where
  | send (packet : Packet)
  | closeSource
  | receive
  | closeSink
  | cancel
  | pause
  | resume
  | cloneHandle
  | dropHandle
  | lock
  | unlock
  | edit (x : X)

inductive LoopLabel (K X : Type) where
  | own (a : Own K)
  /-- the shutdown timeout runs out -/
  | expire
  | outside (a : Outside X)

def LoopLabel.isOwn {K X : Type} : LoopLabel K X → Bool
  | .own _ => true
  | _ => false

namespace RunState
variable {G K X : Type}

def init (graph : G) (source sink : Channel Packet) (pause : GraphPause) : RunState G where
  graph := graph
  locked := false
  source := source
  sourceOpen := true
  sink := sink
  sinkOpen := true
  cancelled := false
  pause := pause
  phase := .init
  sent := source.buffer
  taken := []
  executed := []
  delivered := []

def take (s : RunState G) (stage : Stage) (packet : Packet) (source : Channel Packet) : RunState G :=
  { s with source := source, phase := .lock stage packet, taken := s.taken ++ [packet] }

def select (s : RunState G) : Option (RunState G) :=
  if s.cancelled then some { s with phase := .drain }
  else
    match GraphPause.waitUntilPaused GraphPause.rounds s.pause with
    | (.ready, pause) => some { s with pause := pause, phase := .head }
    | (.pending, pause) =>
      match s.source.tryRecv with
      | some (packet, source) => some ({ s with pause := pause }.take .main packet source)
      | none => if s.sourceOpen then none else some { s with pause := pause, phase := .drain }

def deliver (s : RunState G) (stage : Stage) (output : Packet) : Option (RunState G) :=
  if s.sinkOpen then
    (s.sink.trySend output).map fun sink =>
      { s with sink := sink, phase := stage.next, delivered := s.delivered ++ [output] }
  else some { s with phase := stage.stop }

/-- An error of `shutdown_all_nodes` is only logged; a panic unwinds. -/
def ignoreError : Unwind (Except ModuleError Unit) → Unwind (Except ModuleError Unit)
  | .returned _ => .returned (.ok ())
  | .panicked reason => .panicked reason

def poll (E : Engine G K X) (s : RunState G) : Option (RunState G) :=
  match s.phase with
  | .init =>
    if s.locked then none
    else
      match E.initializeAllNodes s.graph with
      | (graph, .returned (.ok ())) => some { s with graph := graph, phase := .head }
      | (graph, result) => some { s with graph := graph, phase := .returned result }
  | .head =>
    match GraphPause.waitUntilResumed GraphPause.rounds s.pause with
    | (.ready, pause) => some { s with pause := pause, phase := .select }
    | (.pending, _) => none
  | .select => s.select
  | .deliver stage output => s.deliver stage output
  | .drain =>
    match s.source.tryRecv with
    | some (packet, source) => some (s.take .drain packet source)
    | none => some { s with phase := .shutdown }
  | .shutdown =>
    if s.locked then none
    else
      match E.shutdownAllNodes s.graph with
      | (graph, result) => some { s with graph := graph, phase := .returned (ignoreError result) }
  | .lock .. | .running .. | .returned _ => none

def execute (E : Engine G K X) (s : RunState G) (stage : Stage) (packet : Packet) (readings : K) : RunState G :=
  match E.execute readings s.graph packet with
  | (graph, none) => { s with graph := graph, phase := .running stage packet }
  | (graph, some outcome) =>
    { s with
      graph := graph
      executed := s.executed ++ [(packet, outcome)]
      phase := stage.after outcome }

/-- A shutdown timeout drops the future it bounds, with the packet or output in hand. -/
def expire (s : RunState G) : Option (RunState G) :=
  match s.phase with
  | .lock .drain _ | .deliver .drain _ => some { s with phase := .shutdown }
  | .shutdown => some { s with phase := .returned (.returned (.ok ())) }
  | _ => none

def act (E : Engine G K X) (s : RunState G) : Own K → Option (RunState G)
  | .poll => s.poll E
  | .execute readings =>
    match s.phase with
    | .lock stage packet => if s.locked then none else some (s.execute E stage packet readings)
    | _ => none

def listening (s : RunState G) : Bool :=
  match s.phase with
  | .returned _ => false
  | _ => s.sourceOpen

def lockable (s : RunState G) : Bool :=
  match s.phase with
  | .running .. => false
  | _ => !s.locked

def disturb (E : Engine G K X) (s : RunState G) : Outside X → Option (RunState G)
  | .send packet =>
    if s.listening then
      (s.source.trySend packet).map fun source => { s with source := source, sent := s.sent ++ [packet] }
    else none
  | .closeSource => some { s with sourceOpen := false }
  | .receive => if s.sinkOpen then s.sink.tryRecv.map fun (_, sink) => { s with sink := sink } else none
  | .closeSink => some { s with sinkOpen := false }
  | .cancel => some { s with cancelled := true }
  | .pause => if 0 < s.pause.senders then some { s with pause := s.pause.pause } else none
  | .resume => if 0 < s.pause.senders then some { s with pause := s.pause.resume } else none
  | .cloneHandle =>
    if 0 < s.pause.senders then some { s with pause := { s.pause with senders := s.pause.senders + 1 } } else none
  | .dropHandle =>
    if 0 < s.pause.senders then some { s with pause := { s.pause with senders := s.pause.senders - 1 } } else none
  | .lock => if s.lockable then some { s with locked := true } else none
  | .unlock => if s.locked then some { s with locked := false } else none
  | .edit x => if s.locked ∨ E.needsLock x = false then some { s with graph := E.edit x s.graph } else none

def step (E : Engine G K X) (s : RunState G) : LoopLabel K X → Option (RunState G)
  | .own a => s.act E a
  | .expire => s.expire
  | .outside a => s.disturb E a

/-- The steps of the system, one constructor for each way the loop can go on. -/
inductive Step (E : Engine G K X) (s : RunState G) : LoopLabel K X → RunState G → Prop
  | initialized {graph} (hp : s.phase = .init) (hm : s.locked = false)
      (hi : E.initializeAllNodes s.graph = (graph, .returned (.ok ()))) :
      Step E s (.own .poll) { s with graph := graph, phase := .head }
  | failed {graph result} (hp : s.phase = .init) (hm : s.locked = false)
      (hi : E.initializeAllNodes s.graph = (graph, result)) :
      Step E s (.own .poll) { s with graph := graph, phase := .returned result }
  | resumed {pause : GraphPause} (hp : s.phase = .head) (hw : s.pause.value = false ∨ s.pause.senders = 0)
      (hv : pause.value = s.pause.value) (hs : pause.senders = s.pause.senders) :
      Step E s (.own .poll) { s with pause := pause, phase := .select }
  | stopped (hp : s.phase = .select) (hc : s.cancelled = true) : Step E s (.own .poll) { s with phase := .drain }
  | paused (hp : s.phase = .select) (hc : s.cancelled = false) (hv : s.pause.value = true) :
      Step E s (.own .poll) { s with phase := .head }
  | received {packet source} (hp : s.phase = .select) (hc : s.cancelled = false) (hv : s.pause.value = false)
      (hr : s.source.tryRecv = some (packet, source)) :
      Step E s (.own .poll) ({ s with pause := s.pause.saw }.take .main packet source)
  | closed (hp : s.phase = .select) (hc : s.cancelled = false) (hv : s.pause.value = false)
      (hr : s.source.tryRecv = none) (ho : s.sourceOpen = false) :
      Step E s (.own .poll) { s with pause := s.pause.saw, phase := .drain }
  | unfinished {stage packet readings graph} (hp : s.phase = .lock stage packet) (hm : s.locked = false)
      (he : E.execute readings s.graph packet = (graph, none)) :
      Step E s (.own (.execute readings)) { s with graph := graph, phase := .running stage packet }
  | executed {stage packet readings graph outcome} (hp : s.phase = .lock stage packet) (hm : s.locked = false)
      (he : E.execute readings s.graph packet = (graph, some outcome)) :
      Step E s (.own (.execute readings))
        { s with graph := graph, executed := s.executed ++ [(packet, outcome)], phase := stage.after outcome }
  | delivered {stage output sink} (hp : s.phase = .deliver stage output) (ho : s.sinkOpen = true)
      (hs : s.sink.trySend output = some sink) :
      Step E s (.own .poll) { s with sink := sink, phase := stage.next, delivered := s.delivered ++ [output] }
  | refused {stage output} (hp : s.phase = .deliver stage output) (ho : s.sinkOpen = false) :
      Step E s (.own .poll) { s with phase := stage.stop }
  | drained {packet source} (hp : s.phase = .drain) (hr : s.source.tryRecv = some (packet, source)) :
      Step E s (.own .poll) (s.take .drain packet source)
  | emptied (hp : s.phase = .drain) (hr : s.source.tryRecv = none) :
      Step E s (.own .poll) { s with phase := .shutdown }
  | shutDown {graph result} (hp : s.phase = .shutdown) (hm : s.locked = false)
      (hs : E.shutdownAllNodes s.graph = (graph, result)) :
      Step E s (.own .poll) { s with graph := graph, phase := .returned (ignoreError result) }
  | expiredDrain (hp : (∃ packet, s.phase = .lock .drain packet) ∨ ∃ output, s.phase = .deliver .drain output) :
      Step E s .expire { s with phase := .shutdown }
  | expiredShutdown (hp : s.phase = .shutdown) :
      Step E s .expire { s with phase := .returned (.returned (.ok ())) }
  | outside {a s'} (h : s.disturb E a = some s') : Step E s (.outside a) s'

variable {E : Engine G K X} {s s' : RunState G}

theorem select_cases (hp : s.phase = .select) (h : s.select = some s') : Step E s (.own .poll) s' := by
  unfold select at h
  by_cases hc : s.cancelled
  · rw [if_pos hc] at h
    cases h
    exact .stopped hp hc
  · rw [if_neg hc, GraphPause.waitUntilPaused_eq] at h
    have hc : s.cancelled = false := by simpa using hc
    by_cases hv : s.pause.value
    · rw [if_pos hv] at h
      cases h
      exact .paused hp hc hv
    · rw [if_neg hv] at h
      have hv : s.pause.value = false := by simpa using hv
      simp only at h
      split at h
      · cases h
        exact .received hp hc hv ‹_›
      · obtain ⟨ho, ⟨⟩⟩ := Option.ite_none_left_eq_some.mp h
        exact .closed hp hc hv ‹_› (by simpa using ho)

theorem poll_cases (h : s.poll E = some s') : Step E s (.own .poll) s' := by
  unfold poll at h
  split at h
  · rename_i hp
    split_ifs at h with hm
    have hm : s.locked = false := by simpa using hm
    split at h
    · cases h
      exact .initialized hp hm ‹_›
    · cases h
      exact .failed hp hm ‹_›
  · rename_i hp
    -- a flag that is set and has no handle left counts as resumed
    rw [GraphPause.waitUntilResumed_eq] at h
    by_cases hv : s.pause.value
    · rw [if_pos hv] at h
      by_cases hs : s.pause.senders = 0
      · rw [if_pos hs] at h
        cases h
        exact .resumed hp (.inr hs) rfl rfl
      · rw [if_neg hs] at h
        cases h
    · rw [if_neg hv] at h
      cases h
      exact .resumed hp (.inl (by simpa using hv)) rfl rfl
  · exact select_cases ‹_› h
  · rename_i hp
    unfold deliver at h
    split_ifs at h with ho
    · obtain ⟨sink, hs, rfl⟩ := Option.map_eq_some_iff.mp h
      exact .delivered hp ho hs
    · cases h
      exact .refused hp (by simpa using ho)
  · rename_i hp
    split at h
    · cases h
      exact .drained hp ‹_›
    · cases h
      exact .emptied hp ‹_›
  · rename_i hp
    split_ifs at h with hm
    cases h
    exact .shutDown hp (by simpa using hm) rfl
  · cases h
  · cases h
  · cases h

theorem step_cases {l : LoopLabel K X} (h : s.step E l = some s') : Step E s l s' := by
  match l, h with
  | .own .poll, h => exact poll_cases h
  | .own (.execute readings), h =>
    simp only [step, act] at h
    split at h
    · rename_i stage packet hp
      split_ifs at h with hm
      have hm : s.locked = false := by simpa using hm
      unfold execute at h
      split at h
      · cases h
        exact .unfinished hp hm ‹_›
      · cases h
        exact .executed hp hm ‹_›
    · cases h
  | .expire, h =>
    simp only [step, expire] at h
    split at h
    · cases h
      exact .expiredDrain (.inl ⟨_, ‹_›⟩)
    · cases h
      exact .expiredDrain (.inr ⟨_, ‹_›⟩)
    · cases h
      exact .expiredShutdown ‹_›
    · cases h
  | .outside a, h => exact .outside h

structure Undisturbed (s s' : RunState G) : Prop where
  phase : s'.phase = s.phase
  taken : s'.taken = s.taken
  executed : s'.executed = s.executed
  delivered : s'.delivered = s.delivered
  source : ∃ packets, s'.source.buffer = s.source.buffer ++ packets ∧ s'.sent = s.sent ++ packets

theorem undisturbed {a : Outside X} (h : s.disturb E a = some s') : s.Undisturbed s' := by
  have hsame : ∀ s' : RunState G, s'.phase = s.phase → s'.taken = s.taken → s'.executed = s.executed →
      s'.delivered = s.delivered → s'.source = s.source → s'.sent = s.sent → s.Undisturbed s' :=
    fun s' hp ht he hd hsrc hs => ⟨hp, ht, he, hd, [], by rw [hsrc, List.append_nil], by rw [hs, List.append_nil]⟩
  cases a with
  | send packet =>
    obtain ⟨-, h⟩ := Option.ite_none_right_eq_some.mp h
    obtain ⟨source, hs, rfl⟩ := Option.map_eq_some_iff.mp h
    exact ⟨rfl, rfl, rfl, rfl, [packet], (Channel.trySend_eq_some.mp hs).2.1, rfl⟩
  | receive =>
    obtain ⟨-, h⟩ := Option.ite_none_right_eq_some.mp h
    obtain ⟨_, -, rfl⟩ := Option.map_eq_some_iff.mp h
    exact hsame _ rfl rfl rfl rfl rfl rfl
  | closeSource | closeSink | cancel =>
    cases h
    exact hsame _ rfl rfl rfl rfl rfl rfl
  | pause | resume | cloneHandle | dropHandle | lock | unlock | edit =>
    obtain ⟨-, ⟨⟩⟩ := Option.ite_none_right_eq_some.mp h
    exact hsame _ rfl rfl rfl rfl rfl rfl

theorem disturb_graph {a : Outside X} (h : s.disturb E a = some s') :
    (∃ x, a = .edit x ∧ s' = { s with graph := E.edit x s.graph }) ∨ s'.graph = s.graph := by
  cases a with
  | edit x =>
    obtain ⟨-, ⟨⟩⟩ := Option.ite_none_right_eq_some.mp h
    exact .inl ⟨x, rfl, rfl⟩
  | send packet =>
    obtain ⟨-, h⟩ := Option.ite_none_right_eq_some.mp h
    obtain ⟨source, -, rfl⟩ := Option.map_eq_some_iff.mp h
    exact .inr rfl
  | receive =>
    obtain ⟨-, h⟩ := Option.ite_none_right_eq_some.mp h
    obtain ⟨_, -, rfl⟩ := Option.map_eq_some_iff.mp h
    exact .inr rfl
  | closeSource | closeSink | cancel =>
    cases h
    exact .inr rfl
  | pause | resume | cloneHandle | dropHandle | lock | unlock =>
    obtain ⟨-, ⟨⟩⟩ := Option.ite_none_right_eq_some.mp h
    exact .inr rfl

def AwaitsOthers (s : RunState G) : Prop :=
  match s.phase with
  | .init | .shutdown | .lock .. => s.locked = true
  | .running .. => True
  | .deliver _ output => s.sinkOpen = true ∧ s.sink.trySend output = none
  | _ => False

end RunState
end Nyarix
