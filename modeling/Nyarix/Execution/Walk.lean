import Nyarix.Graph.FlowGraph

/-! What both execution engines do at a node: check the payload limit, record the hop,
call the module on a dequeued packet, check its time budget and choose where to go next. -/

namespace Nyarix
variable {M : Type} [Node M]

def GraphNode.checkPayloadLimit (node : GraphNode M) (packet : Packet) : Except ExecutionError Unit :=
  match node.metadata.resourceLimits.maxPayloadBytes with
  | none => .ok ()
  | some max =>
    if max < packet.len then .error (.module (.quotaExceeded node.metadata.name "payload_size"))
    else .ok ()

def GraphNode.checkProcessingTime (node : GraphNode M) (elapsed : Duration) :
    Except ExecutionError Unit :=
  match node.metadata.resourceLimits.maxProcessingTime with
  | none => .ok ()
  | some max =>
    if max < elapsed then .error (.module (.quotaExceeded node.metadata.name "processing_time"))
    else .ok ()

def deadEnd (current : NodeId) : ExecutionError :=
  .graph (.buildFailed (s!"node {current} has no outgoing edge accepting this packet (and isn't an " ++
    "exit point) — run FlowGraph::validate() first"))

def missingNode (id : NodeId) : ExecutionError := .graph (.missingNode (toString id))

/-- Call the module on a dequeued packet; the time budget is checked before the outcome. -/
def GraphNode.processTimed (node : GraphNode M) (packet : Packet) (elapsed : Duration) :
    GraphNode M × Unwind (Except ExecutionError (Option Packet)) :=
  match node.process packet with
  | (node, .panicked reason) => (node, .panicked reason)
  | (node, .returned outcome) =>
    match node.checkProcessingTime elapsed with
    | .error e => (node, .returned (.error e))
    | .ok () =>
      match outcome with
      | .error e => (node, .returned (.error (.module e)))
      | .ok packet => (node, .returned (.ok packet))

/-- Outcome of processing one packet through one node, before deciding where it goes next. -/
inductive WalkStep where
  | absorbed
  | exited (packet : Packet)
  | goOn (packet : Packet) (next : List (EdgeType × NodeId))

def FlowGraph.walkStep (g : FlowGraph M) (current : NodeId) : Option Packet → WalkStep
  | none => .absorbed
  | some packet =>
    if current ∈ g.exitPoints then .exited packet
    else .goOn packet (((g.edgesFrom current).filter (·.accepts packet)).map fun edge =>
      (edge.edgeType, edge.toNode))

def parallelTargets (next : List (EdgeType × NodeId)) : List NodeId :=
  (next.filter (·.1 = .parallel)).map Prod.snd

variable (node : GraphNode M) (packet : Packet) (elapsed : Duration)

theorem GraphNode.processTimed_fst : (node.processTimed packet elapsed).1 = (node.process packet).1 := by
  unfold processTimed
  cases hp : node.process packet with
  | mk n r =>
    cases r with
    | panicked => rfl
    | returned outcome =>
      cases hc : n.checkProcessingTime elapsed with
      | error => simp only [hc]
      | ok => cases outcome <;> simp only [hc]

@[simp] theorem GraphNode.processTimed_queue : (node.processTimed packet elapsed).1.queue = node.queue := by
  rw [processTimed_fst, process_queue]

@[simp] theorem GraphNode.processTimed_ptr :
    (node.processTimed packet elapsed).1.module.ptr = node.module.ptr := by
  rw [processTimed_fst, process_ptr]

end Nyarix
