import Nyarix.Execution.Walk

/-! Sequential execution: one packet walks the graph, one node after the other, each time through
the node's queue. Every round of the walk reads the clock for its hop and around the module call. -/

namespace Nyarix

abbrev Outcome := Unwind (Except ExecutionError (Option Packet))

def Outcome.output : Outcome → Option Packet
  | .returned (.ok output) => output
  | .returned (.error _) | .panicked _ => none

structure Reading where
  now : Instant
  elapsed : Duration

structure ProcessCall where
  node : NodeId
  ptr : Nat
  packet : Packet
  deriving DecidableEq

inductive Hop where
  | stop (outcome : Outcome)
  | next (current : NodeId) (packet : Packet)

/-- A walk, as far as its readings go; it has no outcome if it goes on after them. -/
structure Trip (M : Type) where
  graph : FlowGraph M
  calls : List ProcessCall
  outcome : Option Outcome

variable {M : Type} [Node M]

/-- Queue the packet and take whichever packet priority puts next. -/
def GraphNode.enqueueAndDequeueSync (node : GraphNode M) (packet : Packet) :
    GraphNode M × Unwind (Except ExecutionError Packet) :=
  match node.queue.trySend packet with
  | none => (node, .returned (.error (.graph (.buildFailed s!"node {node.id} input queue is full"))))
  | some queue =>
    match queue.tryRecvPrioritized with
    | none => ({ node with queue := queue }, .panicked "a packet was just enqueued into this node's own queue")
    | some (packet, queue) => ({ node with queue := queue }, .returned (.ok packet))

/-- The call is made only if the node owns its module alone. -/
def GraphNode.processCalls (node : GraphNode M) (current : NodeId) (packet : Packet) : List ProcessCall :=
  if node.module.strongCount = 1 then [⟨current, node.module.ptr, packet⟩] else []

namespace FlowGraph

def onward (g : FlowGraph M) (current : NodeId) : Outcome → Hop
  | .returned (.ok (some packet)) =>
    if current ∈ g.exitPoints then .stop (.returned (.ok (some packet)))
    else
      match (g.edgesFrom current).find? (·.accepts packet) with
      | none => .stop (.returned (.error (deadEnd current)))
      | some edge => .next edge.toNode packet
  | outcome => .stop outcome

def visit (g : FlowGraph M) (current : NodeId) (packet : Packet) (reading : Reading) :
    FlowGraph M × List ProcessCall × Hop :=
  match g.node current with
  | none => (g, [], .stop (.returned (.error (missingNode current))))
  | some node =>
    match node.checkPayloadLimit packet with
    | .error e => (g, [], .stop (.returned (.error e)))
    | .ok () =>
      match node.enqueueAndDequeueSync (packet.recordHop current reading.now) with
      | (node, .panicked reason) => (g.modifyNode current fun _ => node, [], .stop (.panicked reason))
      | (node, .returned (.error e)) => (g.modifyNode current fun _ => node, [], .stop (.returned (.error e)))
      | (node, .returned (.ok queued)) =>
        let r := node.processTimed queued reading.elapsed
        (g.modifyNode current fun _ => r.1, node.processCalls current queued, g.onward current r.2)

def walk : List Reading → FlowGraph M → NodeId → Packet → Trip M
  | [], g, _, _ => ⟨g, [], none⟩
  | reading :: readings, g, current, packet =>
    match g.visit current packet reading with
    | (g, calls, .stop outcome) => ⟨g, calls, some outcome⟩
    | (g, calls, .next current packet) =>
      let trip := walk readings g current packet
      ⟨trip.graph, calls ++ trip.calls, trip.outcome⟩

def executeSequential (g : FlowGraph M) (entry : NodeId) (packet : Packet) (readings : List Reading) : Trip M :=
  if entry ∈ g.entryPoints then walk readings g entry packet
  else ⟨g, [], some (.returned (.error (missingNode entry)))⟩

end FlowGraph

omit [Node M] in
theorem GraphNode.enqueueAndDequeueSync_returned (node : GraphNode M) (packet : Packet) :
    ∃ result, (node.enqueueAndDequeueSync packet).2 = .returned result := by
  unfold enqueueAndDequeueSync
  split
  · exact ⟨_, rfl⟩
  · rename_i queue hsend
    split
    · rename_i hrecv
      have hperm := (NodeQueue.trySend_eq_some hsend).1
      rw [NodeQueue.tryRecvPrioritized_eq_none.mp hrecv] at hperm
      exact absurd hperm.symm (List.not_perm_cons_nil)
    · exact ⟨_, rfl⟩

end Nyarix
