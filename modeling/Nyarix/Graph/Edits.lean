import Nyarix.Graph.FlowGraph

/-! What each edit does to the nodes and edges of a graph, whatever it returns. -/

namespace Nyarix
namespace FlowGraph
variable {M : Type}

@[simp] theorem addNode_nodes (g : FlowGraph M) (node : GraphNode M) :
    (g.addNode node).nodes = g.nodes.insert node.id node := by
  unfold addNode
  split <;> simp only [markEntryPoint, markExitPoint, apply_ite FlowGraph.nodes, ite_self]

@[simp] theorem addNode_edges (g : FlowGraph M) (node : GraphNode M) : (g.addNode node).edges = g.edges := by
  unfold addNode
  split <;> simp only [markEntryPoint, markExitPoint, apply_ite FlowGraph.edges, ite_self]

theorem mem_addNode {g : FlowGraph M} {node : GraphNode M} {id : NodeId} :
    id ∈ (g.addNode node).nodes ↔ id = node.id ∨ id ∈ g.nodes := by
  rw [addNode_nodes, AList.mem_insert]

theorem connect_ok_iff (g : FlowGraph M) (edge : Edge) :
    (g.connect edge).2 = .ok () ↔ edge.fromNode ∈ g.nodes ∧ edge.toNode ∈ g.nodes := by
  unfold connect
  split_ifs with hfrom hto <;> simp [*]

theorem connect_error {g : FlowGraph M} {edge : Edge} {error : GraphError}
    (h : (g.connect edge).2 = .error error) : (g.connect edge).1 = g := by
  unfold connect at h ⊢
  split_ifs at h ⊢ <;> rfl

@[simp] theorem connect_nodes (g : FlowGraph M) (edge : Edge) : (g.connect edge).1.nodes = g.nodes := by
  unfold connect
  split_ifs <;> rfl

theorem connectAll_cons (g : FlowGraph M) (pred succ : NodeId) (pairs : List (NodeId × NodeId)) :
    g.connectAll ((pred, succ) :: pairs) =
      if pred ∈ g.nodes ∧ succ ∈ g.nodes then
        (g.connect ⟨pred, succ, .sequential, none⟩).1.connectAll pairs
      else g.connect ⟨pred, succ, .sequential, none⟩ := by
  have hok := connect_ok_iff g ⟨pred, succ, .sequential, none⟩
  rw [connectAll]
  split
  · rename_i g' hg'
    rw [hg'] at hok ⊢
    rw [if_pos (hok.mp rfl)]
  · rename_i hfail
    rw [if_neg]
    rintro hends
    exact hfail _ (Prod.ext rfl (hok.mpr hends))

@[simp] theorem connectAll_nodes (g : FlowGraph M) (pairs : List (NodeId × NodeId)) :
    (g.connectAll pairs).1.nodes = g.nodes := by
  induction pairs generalizing g with
  | nil => rfl
  | cons pair pairs ih =>
    rw [connectAll_cons]
    split_ifs
    · rw [ih, connect_nodes]
    · rw [connect_nodes]

theorem connectAll_ok_iff (g : FlowGraph M) (pairs : List (NodeId × NodeId)) :
    (g.connectAll pairs).2 = .ok () ↔ ∀ pair ∈ pairs, pair.1 ∈ g.nodes ∧ pair.2 ∈ g.nodes := by
  induction pairs generalizing g with
  | nil => simp [connectAll]
  | cons pair pairs ih =>
    rw [connectAll_cons, List.forall_mem_cons]
    split_ifs with hends
    · rw [ih, connect_nodes, and_iff_right hends]
    · rw [connect_ok_iff]
      exact iff_of_false hends fun h => hends h.1

theorem length_le_one_cases {edges : List Edge} (hout : edges.length ≤ 1) : edges = [] ∨ ∃ edge, edges = [edge] :=
  (Nat.le_one_iff_eq_zero_or_eq_one.mp hout).imp List.length_eq_zero_iff.mp List.length_eq_one_iff.mp

theorem insertAfter_nodes (g : FlowGraph M) (afterId : NodeId) (newNode : GraphNode M) :
    (g.insertAfter afterId newNode).1.nodes = g.nodes ∨
      (g.insertAfter afterId newNode).1.nodes = g.nodes.insert newNode.id newNode := by
  unfold insertAfter
  split_ifs with hafter
  · split
    · right
      rw [connect_nodes, addNode_nodes]
    · right
      dsimp only
      split
      · rename_i g' hg'
        have hnodes := congrArg (fun r => r.1.nodes) hg'
        dsimp only at hnodes
        rw [connect_nodes] at hnodes ⊢
        rw [← hnodes, addNode_nodes]
      · rw [connect_nodes, addNode_nodes]
    · exact .inl rfl
  · exact .inl rfl

def predecessors (g : FlowGraph M) (id : NodeId) : List NodeId :=
  (g.edges.filter (·.toNode = id)).map Edge.fromNode

def successors (g : FlowGraph M) (id : NodeId) : List NodeId := (g.edgesFrom id).map Edge.toNode

def errorOf {α : Type} : Except GraphError α → Option GraphError
  | .ok _ => none
  | .error e => some e

theorem removeNode_none {g : FlowGraph M} {id : NodeId} (h : g.node id = none) : g.removeNode id = (g, none) := by
  unfold removeNode
  rw [show g.nodes.lookup id = none from h]

theorem removeNode_nodes {g : FlowGraph M} {id : NodeId} {node : GraphNode M} (h : g.node id = some node) :
    ∃ g', g.removeNode id = (g', some node) ∧ g'.nodes = g.nodes.erase id := by
  unfold removeNode
  rw [show g.nodes.lookup id = some node from h]
  exact ⟨_, rfl, rfl⟩

def bridges (g : FlowGraph M) (id : NodeId) : List (NodeId × NodeId) :=
  (g.predecessors id).flatMap fun pred => (g.successors id).map fun succ => (pred, succ)

theorem mem_bridges {g : FlowGraph M} {id a b : NodeId} : (a, b) ∈ g.bridges id ↔
    (∃ edge ∈ g.edges, edge.fromNode = a ∧ edge.toNode = id) ∧
      ∃ edge ∈ g.edges, edge.fromNode = id ∧ edge.toNode = b := by
  simp only [bridges, predecessors, successors, edgesFrom, List.mem_flatMap, List.mem_map, List.mem_filter,
    decide_eq_true_eq, Prod.mk.injEq]
  constructor
  · rintro ⟨_, ⟨e, ⟨he, hto⟩, rfl⟩, _, ⟨e', ⟨he', hfrom⟩, rfl⟩, rfl, rfl⟩
    exact ⟨⟨e, he, rfl, hto⟩, e', he', hfrom, rfl⟩
  · rintro ⟨⟨e, he, rfl, hto⟩, e', he', hfrom, rfl⟩
    exact ⟨_, ⟨e, ⟨he, hto⟩, rfl⟩, _, ⟨e', ⟨he', hfrom⟩, rfl⟩, rfl, rfl⟩

theorem removeAndReconnect_early {g : FlowGraph M} {id : NodeId} (hcheck : id ∉ g.nodes ∨
    1 < (g.predecessors id).length ∧ 1 < (g.successors id).length) :
    ∃ error, g.removeAndReconnect id = (g, .error error) := by
  unfold removeAndReconnect
  by_cases hid : id ∈ g.nodes
  · rw [if_neg (not_not.mpr hid)]
    exact ⟨_, if_pos (hcheck.resolve_left (not_not.mpr hid))⟩
  · exact ⟨_, if_pos hid⟩

theorem removeAndReconnect_eq {g g' : FlowGraph M} {id : NodeId} {node : GraphNode M}
    (hfew : ¬ (1 < (g.predecessors id).length ∧ 1 < (g.successors id).length)) (hid : id ∈ g.nodes)
    (hremove : g.removeNode id = (g', some node)) : g.removeAndReconnect id =
      ((g'.connectAll (g.bridges id)).1, (g'.connectAll (g.bridges id)).2.map fun _ => node) := by
  rw [removeAndReconnect, if_neg (not_not.mpr hid)]
  refine (if_neg hfew).trans ?_
  rw [hremove]
  rcases hr : g'.connectAll (g.bridges id) with ⟨g₂, _ | _⟩ <;>
    rw [bridges, predecessors, successors, edgesFrom] at hr
  all_goals
    dsimp only
    rw [hr]
    rfl

theorem removeAndReconnect_late {g : FlowGraph M} {id : NodeId} (hid : id ∈ g.nodes)
    (hfew : ¬ (1 < (g.predecessors id).length ∧ 1 < (g.successors id).length)) :
    (g.removeAndReconnect id).1.nodes = g.nodes.erase id ∧
      (errorOf (g.removeAndReconnect id).2 = none ↔
        ∀ pair ∈ g.bridges id, pair.1 ∈ g.nodes.erase id ∧ pair.2 ∈ g.nodes.erase id) := by
  obtain ⟨node, hnode⟩ := HashMap.exists_of_mem hid
  obtain ⟨g', hg', hnodes⟩ := removeNode_nodes hnode
  have hall := connectAll_nodes g' (g.bridges id)
  have hok := connectAll_ok_iff g' (g.bridges id)
  rw [hnodes] at hall hok
  rw [removeAndReconnect_eq hfew hid hg']
  refine ⟨hall, ?_⟩
  rw [← hok]
  rcases (g'.connectAll (g.bridges id)).2 with _ | _ <;> simp [errorOf, Except.map]

theorem removeAndReconnect_ok {g g' : FlowGraph M} {id : NodeId} {removed : GraphNode M}
    (h : g.removeAndReconnect id = (g', .ok removed)) :
    g.node id = some removed ∧ g'.nodes = g.nodes.erase id := by
  by_cases hcheck : id ∉ g.nodes ∨ 1 < (g.predecessors id).length ∧ 1 < (g.successors id).length
  · obtain ⟨error, hearly⟩ := removeAndReconnect_early hcheck
    rw [hearly] at h
    cases (Prod.mk.inj h).2
  · rw [not_or, not_not] at hcheck
    obtain ⟨node, hnode⟩ := HashMap.exists_of_mem hcheck.1
    have herased := (removeAndReconnect_late hcheck.1 hcheck.2).1
    rw [h] at herased
    obtain ⟨g₁, hremove, -⟩ := removeNode_nodes hnode
    rw [removeAndReconnect_eq hcheck.2 hcheck.1 hremove] at h
    have hmap := (Prod.mk.inj h).2
    cases hall : (g₁.connectAll (g.bridges id)).2 with
    | error =>
      rw [hall] at hmap
      cases hmap
    | ok =>
      rw [hall] at hmap
      rw [← Except.ok.inj hmap]
      exact ⟨hnode, herased⟩

theorem removeAndReconnect_nodes (g : FlowGraph M) (id : NodeId) :
    (g.removeAndReconnect id).1.nodes = g.nodes ∨ (g.removeAndReconnect id).1.nodes = g.nodes.erase id := by
  by_cases hcheck : id ∉ g.nodes ∨ 1 < (g.predecessors id).length ∧ 1 < (g.successors id).length
  · obtain ⟨error, hearly⟩ := removeAndReconnect_early hcheck
    exact .inl (by rw [hearly])
  · rw [not_or, not_not] at hcheck
    exact .inr (removeAndReconnect_late hcheck.1 hcheck.2).1

/-- What `swap_node` can do, by what became of the outgoing module's `migrate`. -/
theorem swapNode_cases [Node M] (g : FlowGraph M) (id : NodeId) (newModule : ArcNode M) :
    (g.node id = none ∧ g.swapNode id newModule = (g, .returned (.error (.missingNode (toString id))))) ∨
    ∃ old, g.node id = some old ∧
      ((∃ reason, g.swapNode id newModule =
        ({ g with nodes := g.nodes.insert id old.migrate.1 }, .panicked reason)) ∨
      ∃ r, old.migrate.2 = .returned r ∧ g.swapNode id newModule =
        ({ g with nodes := g.nodes.insert id (.new id newModule old.migrate.1.config) },
          .returned (.ok ⟨old.migrate.1, r⟩))) := by
  unfold FlowGraph.swapNode FlowGraph.node
  cases hold : g.nodes.lookup id with
  | none => exact .inl ⟨rfl, rfl⟩
  | some old =>
    right
    refine ⟨old, rfl, ?_⟩
    dsimp only
    rcases hm : old.migrate with ⟨replaced, r | reason⟩
    · exact .inr ⟨r, rfl, rfl⟩
    · exact .inl ⟨reason, rfl⟩

end FlowGraph
end Nyarix
