import Mathlib.Data.Finset.Insert
import Mathlib.Data.Finset.Prod
import Nyarix.Graph.Edge
import Nyarix.Graph.Node
import Nyarix.Lib.Collection

/-! In-memory storage of a flow graph and its edits. An edit that can fail returns the
graph it leaves behind next to its result. -/

namespace Nyarix

structure FlowGraph (M : Type) where
  nodes : HashMap NodeId (GraphNode M)
  edges : List Edge
  adjacency : HashMap NodeId (List NodeId)
  entryPoints : List NodeId
  exitPoints : List NodeId
  allowedFeedbackEdges : Finset (NodeId × NodeId)

structure SwapOutcome (M : Type) where
  replaced : GraphNode M
  migrateResult : Except ModuleError Unit

namespace FlowGraph
variable {M : Type}

def new : FlowGraph M := ⟨∅, [], ∅, [], [], ∅⟩

def node (g : FlowGraph M) (id : NodeId) : Option (GraphNode M) := g.nodes.lookup id

def edgesFrom (g : FlowGraph M) (id : NodeId) : List Edge := g.edges.filter (·.fromNode = id)

def nodeIds (g : FlowGraph M) : List NodeId := g.nodes.keys

def markEntryPoint (g : FlowGraph M) (id : NodeId) : FlowGraph M :=
  if id ∈ g.entryPoints then g else { g with entryPoints := g.entryPoints ++ [id] }

def markExitPoint (g : FlowGraph M) (id : NodeId) : FlowGraph M :=
  if id ∈ g.exitPoints then g else { g with exitPoints := g.exitPoints ++ [id] }

def allowFeedbackEdge (g : FlowGraph M) (fromNode toNode : NodeId) : FlowGraph M :=
  { g with allowedFeedbackEdges := insert (fromNode, toNode) g.allowedFeedbackEdges }

def addNode (g : FlowGraph M) (node : GraphNode M) : FlowGraph M :=
  let g := match node.nodeType with
    | .source => g.markEntryPoint node.id
    | .sink => g.markExitPoint node.id
    | _ => g
  { g with
    nodes := g.nodes.insert node.id node
    adjacency := if node.id ∈ g.adjacency then g.adjacency else g.adjacency.insert node.id [] }

def removeNode (g : FlowGraph M) (id : NodeId) : FlowGraph M × Option (GraphNode M) :=
  match g.nodes.lookup id with
  | none => (g, none)
  | some removed =>
    ({ g with
        nodes := g.nodes.erase id
        edges := g.edges.filter fun edge => edge.fromNode ≠ id ∧ edge.toNode ≠ id
        adjacency := HashMap.mapValues (fun _ targets => targets.filter (· ≠ id)) (g.adjacency.erase id)
        entryPoints := g.entryPoints.filter (· ≠ id)
        exitPoints := g.exitPoints.filter (· ≠ id) }, some removed)

def pushAdjacent (adjacency : HashMap NodeId (List NodeId)) (fromNode toNode : NodeId) :
    HashMap NodeId (List NodeId) :=
  if fromNode ∈ adjacency then HashMap.modify fromNode (· ++ [toNode]) adjacency
  else adjacency.insert fromNode [toNode]

def connect (g : FlowGraph M) (edge : Edge) : FlowGraph M × Except GraphError Unit :=
  if edge.fromNode ∉ g.nodes then (g, .error (.missingNode (toString edge.fromNode)))
  else if edge.toNode ∉ g.nodes then (g, .error (.missingNode (toString edge.toNode)))
  else
    ({ g with
        adjacency := pushAdjacent g.adjacency edge.fromNode edge.toNode
        edges := g.edges ++ [edge] }, .ok ())

def disconnect (g : FlowGraph M) (fromNode toNode : NodeId) : FlowGraph M × Option Edge :=
  match g.edges.find? fun edge => edge.fromNode = fromNode ∧ edge.toNode = toNode with
  | none => (g, none)
  | some edge =>
    ({ g with
        edges := g.edges.eraseP fun edge => edge.fromNode = fromNode ∧ edge.toNode = toNode
        adjacency := HashMap.modify fromNode (·.erase toNode) g.adjacency }, some edge)

/-- Splice a new node into the only outgoing edge of `afterId`, or append it there. -/
def insertAfter (g : FlowGraph M) (afterId : NodeId) (newNode : GraphNode M) :
    FlowGraph M × Except GraphError Unit :=
  if afterId ∉ g.nodes then (g, .error (.missingNode (toString afterId)))
  else
    match g.edgesFrom afterId with
    | [] => (g.addNode newNode).connect ⟨afterId, newNode.id, .sequential, none⟩
    | [oldEdge] =>
      let g := g.addNode newNode
      let g := { g with
        edges := g.edges.eraseP (·.fromNode = afterId)
        adjacency := HashMap.modify afterId (·.erase oldEdge.toNode) g.adjacency }
      match g.connect ⟨afterId, newNode.id, oldEdge.edgeType, oldEdge.condition⟩ with
      | (g, .ok ()) => g.connect ⟨newNode.id, oldEdge.toNode, .sequential, none⟩
      | failed => failed
    | outgoing =>
      (g, .error (.buildFailed
        s!"node {afterId} has {outgoing.length} outgoing edges; insert_after is ambiguous here"))

def connectAll (g : FlowGraph M) : List (NodeId × NodeId) → FlowGraph M × Except GraphError Unit
  | [] => (g, .ok ())
  | (pred, succ) :: pairs =>
    match g.connect ⟨pred, succ, .sequential, none⟩ with
    | (g, .ok ()) => g.connectAll pairs
    | failed => failed

/-- Remove a node and bridge its predecessors to its successors. -/
def removeAndReconnect (g : FlowGraph M) (id : NodeId) : FlowGraph M × Except GraphError (GraphNode M) :=
  if id ∉ g.nodes then (g, .error (.missingNode (toString id)))
  else
    let predecessors := (g.edges.filter (·.toNode = id)).map Edge.fromNode
    let successors := (g.edges.filter (·.fromNode = id)).map Edge.toNode
    if predecessors.length > 1 ∧ successors.length > 1 then
      (g, .error (.buildFailed (s!"node {id} has {predecessors.length} predecessors and " ++
        s!"{successors.length} successors; remove_and_reconnect only supports 1-to-many or many-to-1")))
    else
      match g.removeNode id with
      | (g, none) => (g, .error (.missingNode (toString id)))
      | (g, some removed) =>
        match g.connectAll (predecessors.flatMap fun pred => successors.map fun succ => (pred, succ)) with
        | (g, .ok ()) => (g, .ok removed)
        | (g, .error e) => (g, .error e)

/-- Replace a node's module in place. A panic of the outgoing module's `migrate` unwinds
out of the call with the old node still installed. -/
def swapNode [Node M] (g : FlowGraph M) (id : NodeId) (newModule : ArcNode M) :
    FlowGraph M × Unwind (Except GraphError (SwapOutcome M)) :=
  match g.nodes.lookup id with
  | none => (g, .returned (.error (.missingNode (toString id))))
  | some oldNode =>
    match oldNode.migrate with
    | (replaced, .panicked reason) =>
      ({ g with nodes := g.nodes.insert id replaced }, .panicked reason)
    | (replaced, .returned migrateResult) =>
      ({ g with nodes := g.nodes.insert id (GraphNode.new id newModule replaced.config) },
        .returned (.ok ⟨replaced, migrateResult⟩))

def Acyclic (g : FlowGraph M) : Prop :=
  ∃ rank : NodeId → Nat, ∀ edge ∈ g.edges, rank edge.fromNode < rank edge.toNode

def modifyNode (g : FlowGraph M) (id : NodeId) (f : GraphNode M → GraphNode M) : FlowGraph M :=
  { g with nodes := HashMap.modify id f g.nodes }

@[simp] theorem node_modifyNode (g : FlowGraph M) (id id' : NodeId) (f : GraphNode M → GraphNode M) :
    (g.modifyNode id f).node id' = if id' = id then (g.node id').map f else g.node id' :=
  HashMap.lookup_modify _ _ _ _

theorem mem_nodeIds {g : FlowGraph M} {n : NodeId} {node : GraphNode M} (h : g.node n = some node) : n ∈ g.nodeIds := by
  refine AList.mem_keys.mpr (AList.lookup_isSome.mp ?_)
  rw [show g.nodes.lookup n = some node from h]
  rfl

def QueuesEmpty (g : FlowGraph M) : Prop := ∀ n node, g.node n = some node → node.queue.packets = []

theorem queuesEmpty_of_entries {g : FlowGraph M} (h : ∀ e ∈ g.nodes.entries, e.2.queue.packets = []) :
    g.QueuesEmpty :=
  fun n node hn => h ⟨n, node⟩ (AList.mem_lookup_iff.mp hn)

end FlowGraph
end Nyarix
