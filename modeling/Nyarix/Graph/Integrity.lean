import Nyarix.Graph.Edits
import Nyarix.Graph.Stub
import Nyarix.Lib.Adjacency

/-! The parts of a flow graph agree after every sequence of edits: the adjacency lists index
the edges, edges join nodes that are present, and every node is stored under its own id. -/

namespace Nyarix

inductive GraphCall (M : Type) where
  | addNode (node : GraphNode M)
  | removeNode (id : NodeId)
  | connect (edge : Edge)
  | disconnect (fromNode toNode : NodeId)
  | markEntryPoint (id : NodeId)
  | markExitPoint (id : NodeId)
  | allowFeedbackEdge (fromNode toNode : NodeId)
  | insertAfter (afterId : NodeId) (newNode : GraphNode M)
  | removeAndReconnect (id : NodeId)
  | swapNode (id : NodeId) (newModule : ArcNode M)

namespace FlowGraph
variable {M : Type}

def edit [Node M] (g : FlowGraph M) : GraphCall M → FlowGraph M
  | .addNode node => g.addNode node
  | .removeNode id => (g.removeNode id).1
  | .connect edge => (g.connect edge).1
  | .disconnect fromNode toNode => (g.disconnect fromNode toNode).1
  | .markEntryPoint id => g.markEntryPoint id
  | .markExitPoint id => g.markExitPoint id
  | .allowFeedbackEdge fromNode toNode => g.allowFeedbackEdge fromNode toNode
  | .insertAfter afterId newNode => (g.insertAfter afterId newNode).1
  | .removeAndReconnect id => (g.removeAndReconnect id).1
  | .swapNode id newModule => (g.swapNode id newModule).1

structure WellFormed (g : FlowGraph M) : Prop where
  keys : ∀ id, id ∈ g.adjacency ↔ id ∈ g.nodes
  endpoints : ∀ edge ∈ g.edges, edge.fromNode ∈ g.nodes ∧ edge.toNode ∈ g.nodes
  adjacent : ∀ id ∈ g.nodes, g.adjacency.lookup id = some ((g.edgesFrom id).map Edge.toNode)
  ownId : ∀ id node, g.node id = some node → node.id = id
  entryNodup : g.entryPoints.Nodup
  exitNodup : g.exitPoints.Nodup

theorem edgesFrom_targets (g : FlowGraph M) (id : NodeId) : (g.edgesFrom id).map Edge.toNode =
    Adjacency.targets Edge.fromNode Edge.toNode g.edges id := rfl

theorem wellFormed_new : (new : FlowGraph M).WellFormed where
  keys _ := Iff.rfl
  endpoints edge h := absurd h (List.not_mem_nil)
  adjacent id h := absurd h (AList.notMem_empty id)
  ownId id node h := by cases h
  entryNodup := List.nodup_nil
  exitNodup := List.nodup_nil

theorem nodup_append_singleton {l : List NodeId} {id : NodeId} (h : l.Nodup) (hid : id ∉ l) :
    (l ++ [id]).Nodup := by
  rw [List.nodup_append_comm]
  exact List.nodup_cons.mpr ⟨hid, h⟩

theorem WellFormed.markEntryPoint {g : FlowGraph M} (h : g.WellFormed) (id : NodeId) :
    (g.markEntryPoint id).WellFormed := by
  unfold FlowGraph.markEntryPoint
  split_ifs with hid
  · exact h
  · exact { h with entryNodup := nodup_append_singleton h.entryNodup hid }

theorem WellFormed.markExitPoint {g : FlowGraph M} (h : g.WellFormed) (id : NodeId) :
    (g.markExitPoint id).WellFormed := by
  unfold FlowGraph.markExitPoint
  split_ifs with hid
  · exact h
  · exact { h with exitNodup := nodup_append_singleton h.exitNodup hid }

theorem WellFormed.allowFeedbackEdge {g : FlowGraph M} (h : g.WellFormed) (a b : NodeId) :
    (g.allowFeedbackEdge a b).WellFormed := { h with }

theorem WellFormed.store {g : FlowGraph M} (h : g.WellFormed) (node : GraphNode M) :
    WellFormed { g with
      nodes := g.nodes.insert node.id node
      adjacency := if node.id ∈ g.adjacency then g.adjacency else g.adjacency.insert node.id [] } where
  keys id := by
    change _ ↔ id ∈ g.nodes.insert node.id node
    rw [AList.mem_insert, ← h.keys id]
    split_ifs with hmem
    · refine ⟨Or.inr, ?_⟩
      rintro (rfl | hid)
      · exact hmem
      · exact hid
    · exact AList.mem_insert _
  endpoints edge he := by
    have hends := h.endpoints edge he
    exact ⟨(AList.mem_insert _).mpr (.inr hends.1), (AList.mem_insert _).mpr (.inr hends.2)⟩
  adjacent id hid := by
    change AList.lookup id (if node.id ∈ g.adjacency then g.adjacency else g.adjacency.insert node.id []) =
      some ((g.edgesFrom id).map Edge.toNode)
    split_ifs with hmem
    · rcases (AList.mem_insert _).mp hid with rfl | hid
      · exact h.adjacent _ ((h.keys _).mp hmem)
      · exact h.adjacent id hid
    · rcases eq_or_ne id node.id with rfl | hne
      · -- a new id: no edge leaves a node that was absent
        have hnone : g.edgesFrom node.id = [] := by
          refine List.filter_eq_nil_iff.mpr fun edge he hfrom => hmem ((h.keys _).mpr ?_)
          exact of_decide_eq_true hfrom ▸ (h.endpoints edge he).1
        rw [AList.lookup_insert, hnone]
        rfl
      · rw [AList.lookup_insert_ne hne]
        exact h.adjacent id (((AList.mem_insert _).mp hid).resolve_left hne)
  ownId id node' hnode := by
    change AList.lookup id (g.nodes.insert node.id node) = some node' at hnode
    rcases eq_or_ne id node.id with rfl | hne
    · rw [AList.lookup_insert, Option.some.injEq] at hnode
      rw [hnode]
    · rw [AList.lookup_insert_ne hne] at hnode
      exact h.ownId id node' hnode
  entryNodup := h.entryNodup
  exitNodup := h.exitNodup

theorem WellFormed.addNode {g : FlowGraph M} (h : g.WellFormed) (node : GraphNode M) :
    (g.addNode node).WellFormed := by
  unfold FlowGraph.addNode
  split
  · exact (h.markEntryPoint node.id).store node
  · exact (h.markExitPoint node.id).store node
  · exact h.store node

theorem WellFormed.removeNode {g : FlowGraph M} (h : g.WellFormed) (id : NodeId) :
    (g.removeNode id).1.WellFormed := by
  unfold FlowGraph.removeNode
  split
  · exact h
  refine ⟨fun k => ?_, fun edge he => ?_, fun k hk => ?_, fun k node hnode => ?_, h.entryNodup.filter _,
    h.exitNodup.filter _⟩
  · change k ∈ HashMap.mapValues _ _ ↔ k ∈ g.nodes.erase id
    rw [HashMap.mem_mapValues, AList.mem_erase, AList.mem_erase, h.keys]
  · obtain ⟨he, hkeep⟩ := List.mem_filter.mp he
    have hne := of_decide_eq_true hkeep
    have hends := h.endpoints edge he
    exact ⟨AList.mem_erase.mpr ⟨hne.1, hends.1⟩, AList.mem_erase.mpr ⟨hne.2, hends.2⟩⟩
  · obtain ⟨hne, hk⟩ := AList.mem_erase.mp hk
    rw [HashMap.lookup_mapValues, AList.lookup_erase_ne hne, h.adjacent k hk, edgesFrom_targets,
      edgesFrom_targets, Adjacency.targets_detach _ _ _ hne]
    rfl
  · change AList.lookup k (g.nodes.erase id) = some node at hnode
    have hne : k ≠ id := by
      rintro rfl
      rw [AList.lookup_erase] at hnode
      cases hnode
    exact h.ownId k node (by rwa [AList.lookup_erase_ne hne] at hnode)

theorem WellFormed.connect {g : FlowGraph M} (h : g.WellFormed) (edge : Edge) :
    (g.connect edge).1.WellFormed := by
  unfold FlowGraph.connect
  split_ifs with hfrom hto
  rotate_left
  · exact h
  · exact h
  have hpush : pushAdjacent g.adjacency edge.fromNode edge.toNode =
      HashMap.modify edge.fromNode (· ++ [edge.toNode]) g.adjacency := if_pos ((h.keys _).mpr hfrom)
  refine ⟨fun k => ?_, fun e he => ?_, fun k hk => ?_, h.ownId, h.entryNodup, h.exitNodup⟩
  · change k ∈ pushAdjacent _ _ _ ↔ k ∈ g.nodes
    rw [hpush, HashMap.mem_modify, h.keys]
  · rcases List.mem_append.mp he with he | he
    · exact h.endpoints e he
    · rw [List.mem_singleton.mp he]
      exact ⟨hfrom, hto⟩
  · change (pushAdjacent _ _ _).lookup k = _
    rw [hpush, HashMap.lookup_modify, edgesFrom_targets, Adjacency.targets_append, Adjacency.targets_cons]
    split_ifs with hka hak hak
    · rw [h.adjacent k hk]
      rfl
    · exact absurd hka.symm hak
    · exact absurd hak.symm hka
    · rw [h.adjacent k hk, Adjacency.targets_nil, List.append_nil, edgesFrom_targets]

theorem WellFormed.cut {g : FlowGraph M} (h : g.WellFormed) {p : Edge → Bool} {a b : NodeId}
    (hp : ∀ e ∈ g.edges, p e = true ↔ e.fromNode = a ∧ e.toNode = b) :
    WellFormed { g with
      edges := g.edges.eraseP p
      adjacency := HashMap.modify a (·.erase b) g.adjacency } where
  keys k := (HashMap.mem_modify _ _ _ _).trans (h.keys k)
  endpoints e he := h.endpoints e (List.mem_of_mem_eraseP he)
  adjacent k hk := by
    change (HashMap.modify a (·.erase b) g.adjacency).lookup k = _
    rw [HashMap.lookup_modify, edgesFrom_targets, Adjacency.targets_eraseP _ _ hp]
    split_ifs with hka
    · subst hka
      rw [h.adjacent k hk]
      rfl
    · exact h.adjacent k hk
  ownId := h.ownId
  entryNodup := h.entryNodup
  exitNodup := h.exitNodup

theorem WellFormed.disconnect {g : FlowGraph M} (h : g.WellFormed) (a b : NodeId) :
    (g.disconnect a b).1.WellFormed := by
  unfold FlowGraph.disconnect
  split
  · exact h
  · exact h.cut fun e _ => decide_eq_true_iff

theorem toNode_of_edgesFrom {g : FlowGraph M} {id : NodeId} {old : Edge} (h : g.edgesFrom id = [old])
    (e : Edge) (he : e ∈ g.edges) : decide (e.fromNode = id) = true ↔ e.fromNode = id ∧ e.toNode = old.toNode := by
  rw [decide_eq_true_iff]
  refine ⟨fun hfrom => ⟨hfrom, ?_⟩, And.left⟩
  have hmem : e ∈ g.edgesFrom id := List.mem_filter.mpr ⟨he, decide_eq_true hfrom⟩
  rw [h, List.mem_singleton] at hmem
  rw [hmem]

theorem WellFormed.insertAfter {g : FlowGraph M} (h : g.WellFormed) (afterId : NodeId)
    (newNode : GraphNode M) : (g.insertAfter afterId newNode).1.WellFormed := by
  unfold FlowGraph.insertAfter
  split_ifs
  swap
  · exact h
  split
  · exact (h.addNode newNode).connect _
  · rename_i old hold
    have hcut := (h.addNode newNode).cut (a := afterId) (b := old.toNode) (p := (·.fromNode = afterId))
      fun e he => toNode_of_edgesFrom hold e (by rwa [addNode_edges] at he)
    have hin := hcut.connect ⟨afterId, newNode.id, old.edgeType, old.condition⟩
    dsimp only
    split
    · rename_i g' hg'
      rw [hg'] at hin
      exact hin.connect _
    · exact hin
  · exact h

theorem WellFormed.connectAll {g : FlowGraph M} (h : g.WellFormed) (pairs : List (NodeId × NodeId)) :
    (g.connectAll pairs).1.WellFormed := by
  induction pairs generalizing g with
  | nil => exact h
  | cons pair pairs ih =>
    have hin := h.connect ⟨pair.1, pair.2, .sequential, none⟩
    unfold FlowGraph.connectAll
    split
    · rename_i g' hg'
      rw [hg'] at hin
      exact ih hin
    · exact hin

theorem WellFormed.removeAndReconnect {g : FlowGraph M} (h : g.WellFormed) (id : NodeId) :
    (g.removeAndReconnect id).1.WellFormed := by
  have hout := h.removeNode id
  unfold FlowGraph.removeAndReconnect
  split_ifs
  swap
  · exact h
  dsimp only
  split_ifs
  · exact h
  split
  · rename_i g' hg'
    rw [hg'] at hout
    exact hout
  · rename_i g' removed hg'
    rw [hg'] at hout
    have hall := hout.connectAll ((List.map Edge.fromNode (g.edges.filter (·.toNode = id))).flatMap fun pred =>
      (List.map Edge.toNode (g.edges.filter (·.fromNode = id))).map fun succ => (pred, succ))
    split
    · rename_i hg₂
      rw [hg₂] at hall
      exact hall
    · rename_i hg₂
      rw [hg₂] at hall
      exact hall

theorem WellFormed.restore {g : FlowGraph M} (h : g.WellFormed) {id : NodeId} {node : GraphNode M}
    (hid : id ∈ g.nodes) (hnode : node.id = id) :
    WellFormed { g with nodes := g.nodes.insert id node } := by
  have hs := h.store node
  rw [if_pos ((h.keys _).mpr (hnode ▸ hid)), hnode] at hs
  exact hs

theorem WellFormed.swapNode [Node M] {g : FlowGraph M} (h : g.WellFormed) (id : NodeId)
    (newModule : ArcNode M) : (g.swapNode id newModule).1.WellFormed := by
  rcases g.swapNode_cases id newModule with ⟨-, hs⟩ | ⟨old, hold, ⟨_, hs⟩ | ⟨_, -, hs⟩⟩ <;> rw [hs]
  · exact h
  · exact h.restore (HashMap.mem_of_lookup hold) (h.ownId id old hold)
  · exact h.restore (HashMap.mem_of_lookup hold) rfl

theorem WellFormed.edit [Node M] {g : FlowGraph M} (h : g.WellFormed) (call : GraphCall M) :
    (g.edit call).WellFormed := by
  cases call with
  | addNode node => exact h.addNode node
  | removeNode id => exact h.removeNode id
  | connect edge => exact h.connect edge
  | disconnect a b => exact h.disconnect a b
  | markEntryPoint id => exact h.markEntryPoint id
  | markExitPoint id => exact h.markExitPoint id
  | allowFeedbackEdge a b => exact h.allowFeedbackEdge a b
  | insertAfter afterId newNode => exact h.insertAfter afterId newNode
  | removeAndReconnect id => exact h.removeAndReconnect id
  | swapNode id newModule => exact h.swapNode id newModule

/-- The parts of a graph agree after every sequence of edits, whatever each of them returns. -/
theorem edits_wellFormed [Node M] (calls : List (GraphCall M)) :
    (calls.foldl edit (new : FlowGraph M)).WellFormed := by
  refine List.foldlRecOn calls edit wellFormed_new fun g hg call _ => ?_
  exact hg.edit call

end FlowGraph
end Nyarix
