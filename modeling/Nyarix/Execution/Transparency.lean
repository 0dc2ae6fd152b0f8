import Nyarix.Execution.Sequential
import Nyarix.Graph.Stub

/-! Sequential execution against a reference walk that has no queues. While the node queues
are empty, a round takes out at once what it queued, so the queues never show. -/

namespace Nyarix
variable {M : Type} [Node M]

namespace FlowGraph

def referenceOnward (g : FlowGraph M) (current : NodeId) (node : GraphNode M) (elapsed : Duration) :
    Unwind (Except ModuleError (Option Packet)) → Hop
  | .panicked reason => .stop (.panicked reason)
  | .returned outcome =>
    match node.checkProcessingTime elapsed, outcome with
    | .error e, _ => .stop (.returned (.error e))
    | .ok (), .error e => .stop (.returned (.error (.module e)))
    | .ok (), .ok none => .stop (.returned (.ok none))
    | .ok (), .ok (some packet) =>
      if current ∈ g.exitPoints then .stop (.returned (.ok (some packet)))
      else
        match (g.edges.filter fun edge => edge.fromNode = current ∧ edge.accepts packet).head? with
        | none => .stop (.returned (.error (deadEnd current)))
        | some edge => .next edge.toNode packet

/-- One round of the reference: the packet in hand is processed, and no queue is touched. -/
def referenceVisit (g : FlowGraph M) (current : NodeId) (packet : Packet) (reading : Reading) :
    FlowGraph M × List ProcessCall × Hop :=
  match g.node current with
  | none => (g, [], .stop (.returned (.error (missingNode current))))
  | some node =>
    match node.checkPayloadLimit packet with
    | .error e => (g, [], .stop (.returned (.error e)))
    | .ok () =>
      let packet := packet.recordHop current reading.now
      let r := node.process packet
      (g.modifyNode current fun _ => r.1, node.processCalls current packet,
        g.referenceOnward current r.1 reading.elapsed r.2)

def referenceWalk : List Reading → FlowGraph M → NodeId → Packet → Trip M
  | [], g, _, _ => ⟨g, [], none⟩
  | reading :: readings, g, current, packet =>
    match g.referenceVisit current packet reading with
    | (g, calls, .stop outcome) => ⟨g, calls, some outcome⟩
    | (g, calls, .next current packet) =>
      let trip := referenceWalk readings g current packet
      ⟨trip.graph, calls ++ trip.calls, trip.outcome⟩

def referenceExecute (g : FlowGraph M) (entry : NodeId) (packet : Packet) (readings : List Reading) :
    Trip M :=
  if entry ∈ g.entryPoints then referenceWalk readings g entry packet
  else ⟨g, [], some (.returned (.error (missingNode entry)))⟩

end FlowGraph

omit [Node M] in
theorem GraphNode.enqueueAndDequeueSync_empty {node : GraphNode M} (hq : node.queue.packets = [])
    (packet : Packet) : node.enqueueAndDequeueSync packet = (node, .returned (.ok packet)) := by
  obtain ⟨queue, hsend, hrecv⟩ := NodeQueue.trySend_tryRecv hq packet
  simp only [enqueueAndDequeueSync, hsend, hrecv]

namespace FlowGraph
variable {g : FlowGraph M}

omit [Node M] in
theorem head?_filter_edges (g : FlowGraph M) (current : NodeId) (packet : Packet) :
    (g.edges.filter fun edge => edge.fromNode = current ∧ edge.accepts packet).head? =
      (g.edgesFrom current).find? (·.accepts packet) := by
  rw [← List.head?_filter, edgesFrom, List.filter_filter]
  congr 2
  funext edge
  rw [Bool.decide_and, Bool.and_comm, Bool.decide_eq_true]

theorem onward_processTimed (g : FlowGraph M) (current : NodeId) (node : GraphNode M) (packet : Packet)
    (elapsed : Duration) : g.onward current (node.processTimed packet elapsed).2 =
      g.referenceOnward current (node.process packet).1 elapsed (node.process packet).2 := by
  unfold GraphNode.processTimed
  rcases node.process packet with ⟨processed, outcome | reason⟩
  · cases hc : processed.checkProcessingTime elapsed with
    | error e =>
      simp only [hc, referenceOnward, onward]
    | ok =>
      rcases outcome with e | _ | packet
      · simp only [hc, referenceOnward, onward]
      · simp only [hc, referenceOnward, onward]
      · -- the two sides look for the edge alike
        cases hfind : (g.edgesFrom current).find? (·.accepts packet) <;>
          simp only [hc, referenceOnward, onward, head?_filter_edges, hfind]
  · rfl

theorem visit_eq_reference (hq : g.QueuesEmpty) (current : NodeId) (packet : Packet) (reading : Reading) :
    g.visit current packet reading = g.referenceVisit current packet reading := by
  unfold visit referenceVisit
  cases hnode : g.node current with
  | none => rfl
  | some node =>
    cases hlimit : node.checkPayloadLimit packet with
    | error e => simp only [hlimit]
    | ok =>
      simp only [hlimit, GraphNode.enqueueAndDequeueSync_empty (hq current node hnode),
        onward_processTimed, GraphNode.processTimed_fst]

theorem QueuesEmpty.referenceVisit (hq : g.QueuesEmpty) (current : NodeId) (packet : Packet)
    (reading : Reading) : (g.referenceVisit current packet reading).1.QueuesEmpty := by
  unfold FlowGraph.referenceVisit
  split
  · exact hq
  · rename_i node hnode
    split
    · exact hq
    · intro n node' hnode'
      rw [node_modifyNode] at hnode'
      split_ifs at hnode' with hn
      · obtain ⟨old, -, rfl⟩ := Option.map_eq_some_iff.mp hnode'
        rw [GraphNode.process_queue]
        exact hq current node hnode
      · exact hq n node' hnode'

theorem walk_eq_reference (hq : g.QueuesEmpty) (readings : List Reading) (current : NodeId) (packet : Packet) :
    walk readings g current packet = referenceWalk readings g current packet ∧
      (walk readings g current packet).graph.QueuesEmpty := by
  induction readings generalizing g current packet with
  | nil => exact ⟨rfl, hq⟩
  | cons reading readings ih =>
    have hround := hq.referenceVisit current packet reading
    unfold walk referenceWalk
    rw [visit_eq_reference hq]
    generalize g.referenceVisit current packet reading = round at hround
    rcases round with ⟨g', calls, outcome | ⟨next, packet'⟩⟩
    · exact ⟨rfl, hround⟩
    · obtain ⟨htrip, hempty⟩ := ih hround next packet'
      exact ⟨by simp only [htrip], hempty⟩

/-- Sequential execution is the reference walk, call by call, and its queues are empty after every
outcome and after every round. -/
theorem execute_sequential_transparent (hq : g.QueuesEmpty) (entry : NodeId) (packet : Packet)
    (readings : List Reading) :
    g.executeSequential entry packet readings = g.referenceExecute entry packet readings ∧
      (g.executeSequential entry packet readings).graph.QueuesEmpty := by
  unfold executeSequential referenceExecute
  split_ifs
  · exact walk_eq_reference hq readings entry packet
  · exact ⟨rfl, hq⟩

theorem execute_sequential_transparent_relay :
    relay.executeSequential ⟨0⟩ (stubPacket 7) [⟨0, 1⟩, ⟨2, 1⟩] =
        relay.referenceExecute ⟨0⟩ (stubPacket 7) [⟨0, 1⟩, ⟨2, 1⟩] ∧
      (relay.executeSequential ⟨0⟩ (stubPacket 7) [⟨0, 1⟩, ⟨2, 1⟩]).graph.QueuesEmpty :=
  execute_sequential_transparent (queuesEmpty_of_entries (by decide)) _ _ _

end FlowGraph
end Nyarix
