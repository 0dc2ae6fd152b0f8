import Nyarix.Graph.Stub
import Nyarix.Runtime.ExecutionLoop

/-! The flow graph as the loop's engine: starting and stopping its nodes, walking a packet through
it, and the edits that others make. Every lifecycle call on a module is recorded. -/

namespace Nyarix

/-- A successful `initialize`, a call of `process`, or a call of `shutdown`, with the instance. -/
inductive LifecycleEvent where
  | initialized (ptr : Nat)
  | processed (ptr : Nat)
  | shutDown (ptr : Nat)
  deriving DecidableEq

structure Host (M : Type) where
  graph : FlowGraph M
  events : List LifecycleEvent

/-- What others do: the live edits of the graph, and lifecycle calls on instances outside it. -/
inductive Edit (M : Type) where
  | insertAfter (afterId : NodeId) (newNode : GraphNode M)
  | swapNode (id : NodeId) (newModule : ArcNode M)
  | removeAndReconnect (id : NodeId)
  /-- `initialize` succeeds on an instance outside the graph -/
  | prepare (ptr : Nat)
  /-- `shutdown` is called on an instance outside the graph -/
  | retire (ptr : Nat)

def Edit.needsLock {M : Type} : Edit M → Bool
  | .insertAfter .. | .swapNode .. | .removeAndReconnect _ => true
  | .prepare _ | .retire _ => false

def Edit.installs {M : Type} : Edit M → Option Nat
  | .insertAfter _ newNode => some newNode.module.ptr
  | .swapNode _ newModule => some newModule.ptr
  | .removeAndReconnect _ | .prepare _ | .retire _ => none

namespace Host
variable {M : Type} [Node M]

def initializeNodes : List NodeId → Host M → Host M × Unwind (Except ModuleError Unit)
  | [], h => (h, .returned (.ok ()))
  | id :: ids, h =>
    match h.graph.node id with
    | none => initializeNodes ids h
    | some node =>
      match node.initializeModule with
      | (node, .returned (.ok ())) =>
        initializeNodes ids ⟨h.graph.modifyNode id fun _ => node, h.events ++ [.initialized node.module.ptr]⟩
      | (node, result) => (⟨h.graph.modifyNode id fun _ => node, h.events⟩, result)

def initializeAllNodes (h : Host M) : Host M × Unwind (Except ModuleError Unit) :=
  initializeNodes h.graph.nodeIds h

/-- The `shutdown` call that a node's own module receives, if the node owns it alone. -/
def shutdownEvents (node : GraphNode M) : List LifecycleEvent :=
  if node.module.strongCount = 1 then [.shutDown node.module.ptr] else []

/-- Drain and shut down nodes in order; the first error is kept and the rest goes on. -/
def shutdownNodes : List NodeId → Host M → Option ModuleError → Host M × Unwind (Except ModuleError Unit)
  | [], h, firstError => (h, .returned (firstError.elim (.ok ()) .error))
  | id :: ids, h, firstError =>
    match h.graph.node id with
    | none => shutdownNodes ids h firstError
    | some node =>
      let events := h.events ++ shutdownEvents node
      match ({ node with queue := node.queue.drain.2 } : GraphNode M).shutdown with
      | (node, .returned (.ok ())) => shutdownNodes ids ⟨h.graph.modifyNode id fun _ => node, events⟩ firstError
      | (node, .returned (.error e)) =>
        shutdownNodes ids ⟨h.graph.modifyNode id fun _ => node, events⟩ (firstError.or (some e))
      | (node, .panicked reason) => (⟨h.graph.modifyNode id fun _ => node, events⟩, .panicked reason)

def shutdownAllNodes (h : Host M) : Host M × Unwind (Except ModuleError Unit) :=
  shutdownNodes h.graph.nodeIds h none

def execute (entry : NodeId) (readings : List Reading) (h : Host M) (packet : Packet) : Host M × Option Outcome :=
  let trip := h.graph.executeSequential entry packet readings
  (⟨trip.graph, h.events ++ trip.calls.map fun call => .processed call.ptr⟩, trip.outcome)

def installed (h : Host M) (ptr : Nat) : Bool := h.graph.nodes.entries.any fun e => e.2.module.ptr = ptr

/-- A module outside the graph is called by whoever owns it alone. -/
def edit : Edit M → Host M → Host M
  | .insertAfter afterId newNode, h => { h with graph := (h.graph.insertAfter afterId newNode).1 }
  | .swapNode id newModule, h => { h with graph := (h.graph.swapNode id newModule).1 }
  | .removeAndReconnect id, h => { h with graph := (h.graph.removeAndReconnect id).1 }
  | .prepare ptr, h => if h.installed ptr then h else { h with events := h.events ++ [.initialized ptr] }
  | .retire ptr, h => if h.installed ptr then h else { h with events := h.events ++ [.shutDown ptr] }

def engine (entry : NodeId) : Engine (Host M) (List Reading) (Edit M) where
  initializeAllNodes := initializeAllNodes
  execute := execute entry
  shutdownAllNodes := shutdownAllNodes
  edit := edit
  needsLock := Edit.needsLock

end Host

def relayHost : Host StubNode := ⟨relay, []⟩

def relaySource : Channel Packet := ⟨4, [stubPacket 7, stubPacket 8], by decide, by decide⟩

def relaySink : Channel Packet := .empty 4 (by decide)

def relayState : RunState (Host StubNode) := .init relayHost relaySource relaySink (.new false)

def relayEngine : Engine (Host StubNode) (List Reading) (Edit StubNode) := Host.engine ⟨0⟩

end Nyarix
