import Nyarix.Graph.Paths
import Nyarix.Lib.Rewiring

/-! The live edits, exactly: what a successful `insert_after` or `remove_and_reconnect` leaves of the
edges, the nodes and the marks, and that the nodes that stay reach each other as before. -/

namespace Nyarix
namespace FlowGraph
variable {M : Type} {g : FlowGraph M}

theorem connect_of_mem (g : FlowGraph M) (edge : Edge) (hfrom : edge.fromNode ∈ g.nodes) (hto : edge.toNode ∈ g.nodes) :
    g.connect edge = ({ g with
      adjacency := pushAdjacent g.adjacency edge.fromNode edge.toNode
      edges := g.edges ++ [edge] }, .ok ()) := by
  rw [connect, if_neg (not_not.mpr hfrom), if_neg (not_not.mpr hto)]

theorem addNode_allowedFeedbackEdges (g : FlowGraph M) (node : GraphNode M) :
    (g.addNode node).allowedFeedbackEdges = g.allowedFeedbackEdges := by
  unfold addNode
  split <;> simp only [markEntryPoint, markExitPoint, apply_ite FlowGraph.allowedFeedbackEdges, ite_self]

theorem addNode_entryPoints (g : FlowGraph M) (node : GraphNode M) : (g.addNode node).entryPoints =
    if node.nodeType = .source ∧ node.id ∉ g.entryPoints then g.entryPoints ++ [node.id] else g.entryPoints := by
  unfold addNode markEntryPoint markExitPoint
  cases node.nodeType <;> dsimp only <;> split_ifs <;> simp_all

theorem addNode_exitPoints (g : FlowGraph M) (node : GraphNode M) : (g.addNode node).exitPoints =
    if node.nodeType = .sink ∧ node.id ∉ g.exitPoints then g.exitPoints ++ [node.id] else g.exitPoints := by
  unfold addNode markEntryPoint markExitPoint
  cases node.nodeType <;> dsimp only <;> split_ifs <;> simp_all

theorem mem_addNode_entryPoints (g : FlowGraph M) (node : GraphNode M) (id : NodeId) :
    id ∈ (g.addNode node).entryPoints ↔ id ∈ g.entryPoints ∨ id = node.id ∧ node.nodeType = .source := by
  rw [addNode_entryPoints]
  split_ifs with hnew
  · rw [List.mem_append, List.mem_singleton, and_iff_left hnew.1]
  · refine ⟨.inl, fun h => h.elim (fun hmem => hmem) fun ⟨hid, htype⟩ => ?_⟩
    rw [hid]
    exact not_not.mp fun hmem => hnew ⟨htype, hmem⟩

theorem mem_addNode_exitPoints (g : FlowGraph M) (node : GraphNode M) (id : NodeId) :
    id ∈ (g.addNode node).exitPoints ↔ id ∈ g.exitPoints ∨ id = node.id ∧ node.nodeType = .sink := by
  rw [addNode_exitPoints]
  split_ifs with hnew
  · rw [List.mem_append, List.mem_singleton, and_iff_left hnew.1]
  · refine ⟨.inl, fun h => h.elim (fun hmem => hmem) fun ⟨hid, htype⟩ => ?_⟩
    rw [hid]
    exact not_not.mp fun hmem => hnew ⟨htype, hmem⟩

theorem mem_markEntryPoint (g : FlowGraph M) (id id' : NodeId) :
    id' ∈ (g.markEntryPoint id).entryPoints ↔ id' ∈ g.entryPoints ∨ id' = id := by
  unfold markEntryPoint
  split_ifs with hid
  · exact ⟨.inl, fun h => h.elim (fun hmem => hmem) fun heq => heq ▸ hid⟩
  · rw [List.mem_append, List.mem_singleton]

theorem mem_markExitPoint (g : FlowGraph M) (id id' : NodeId) :
    id' ∈ (g.markExitPoint id).exitPoints ↔ id' ∈ g.exitPoints ∨ id' = id := by
  unfold markExitPoint
  split_ifs with hid
  · exact ⟨.inl, fun h => h.elim (fun hmem => hmem) fun heq => heq ▸ hid⟩
  · rw [List.mem_append, List.mem_singleton]

/-- The edges once a new node stands behind another one. -/
inductive SplicedEdges (g : FlowGraph M) (afterId newId : NodeId) : List Edge → Prop
  | appended (hnone : g.edgesFrom afterId = []) :
    SplicedEdges g afterId newId (g.edges ++ [⟨afterId, newId, .sequential, none⟩])
  | spliced {front back : List Edge} {old : Edge} (hedges : g.edges = front ++ old :: back)
    (honly : g.edgesFrom afterId = [old]) :
    SplicedEdges g afterId newId (front ++ back ++
      [⟨afterId, newId, old.edgeType, old.condition⟩, ⟨newId, old.toNode, .sequential, none⟩])

/-- What `insert_after` makes of a graph. -/
structure Splices (g : FlowGraph M) (afterId : NodeId) (newNode : GraphNode M) (g' : FlowGraph M) : Prop where
  edges : g.SplicedEdges afterId newNode.id g'.edges
  adjacency : ∀ id ∈ g'.nodes, g'.adjacency.lookup id = some (g'.successors id)
  node : ∀ id, g'.node id = if id = newNode.id then some newNode else g.node id
  allowedFeedbackEdges : g'.allowedFeedbackEdges = g.allowedFeedbackEdges
  entryPoints : g'.entryPoints =
    if newNode.nodeType = .source ∧ newNode.id ∉ g.entryPoints then g.entryPoints ++ [newNode.id] else g.entryPoints
  exitPoints : g'.exitPoints =
    if newNode.nodeType = .sink ∧ newNode.id ∉ g.exitPoints then g.exitPoints ++ [newNode.id] else g.exitPoints

theorem edges_of_edgesFrom {id : NodeId} {old : Edge} (h : g.edgesFrom id = [old]) :
    ∃ front back, g.edges = front ++ old :: back ∧ g.edges.eraseP (·.fromNode = id) = front ++ back := by
  obtain ⟨front, back, hedges, hfront, hold, -⟩ := List.filter_eq_cons_iff.mp h
  refine ⟨front, back, hedges, ?_⟩
  rw [hedges, List.eraseP_append_right _ hfront]
  exact congrArg (front ++ ·) (List.eraseP_cons_of_pos hold)

theorem node_addNode (g : FlowGraph M) (node : GraphNode M) (id : NodeId) :
    (g.addNode node).node id = if id = node.id then some node else g.node id := by
  unfold FlowGraph.node
  rw [addNode_nodes]
  split_ifs with hid
  · rw [hid, AList.lookup_insert]
  · exact AList.lookup_insert_ne hid

theorem splices_of_edges {afterId : NodeId} {newNode : GraphNode M} {g' : FlowGraph M}
    (hnodes : g'.nodes = (g.addNode newNode).nodes)
    (hallowed : g'.allowedFeedbackEdges = (g.addNode newNode).allowedFeedbackEdges)
    (hentries : g'.entryPoints = (g.addNode newNode).entryPoints) (hexits : g'.exitPoints = (g.addNode newNode).exitPoints)
    (hedges : g.SplicedEdges afterId newNode.id g'.edges)
    (hadjacency : ∀ id ∈ g'.nodes, g'.adjacency.lookup id = some (g'.successors id)) : g.Splices afterId newNode g' := by
  refine ⟨hedges, hadjacency, fun id => ?_, ?_, ?_, ?_⟩
  · rw [FlowGraph.node, hnodes]
    exact g.node_addNode newNode id
  · rw [hallowed, addNode_allowedFeedbackEdges]
  · rw [hentries, addNode_entryPoints]
  · rw [hexits, addNode_exitPoints]

theorem splices_insertAfter (hg : g.WellFormed) {afterId : NodeId} (newNode : GraphNode M) (hafter : afterId ∈ g.nodes)
    (hout : (g.edgesFrom afterId).length ≤ 1) : g.Splices afterId newNode (g.insertAfter afterId newNode).1 := by
  have hnew : newNode.id ∈ (g.addNode newNode).nodes := mem_addNode.mpr (.inl rfl)
  have hkept : ∀ {id}, id ∈ g.nodes → id ∈ (g.addNode newNode).nodes := fun h => mem_addNode.mpr (.inr h)
  have hwf := hg.insertAfter afterId newNode
  have hadjacency : ∀ id ∈ (g.insertAfter afterId newNode).1.nodes,
      (g.insertAfter afterId newNode).1.adjacency.lookup id = some ((g.insertAfter afterId newNode).1.successors id) :=
    hwf.adjacent
  rcases Nat.le_one_iff_eq_zero_or_eq_one.mp hout with hlen | hlen
  · -- no edge to splice into, so the node is appended
    have hnone : g.edgesFrom afterId = [] := List.length_eq_zero_iff.mp hlen
    have heq : (g.insertAfter afterId newNode).1 = { g.addNode newNode with
        adjacency := pushAdjacent (g.addNode newNode).adjacency afterId newNode.id
        edges := (g.addNode newNode).edges ++ [⟨afterId, newNode.id, .sequential, none⟩] } := by
      rw [insertAfter, if_neg (not_not.mpr hafter), hnone]
      dsimp only
      rw [connect_of_mem _ _ (hkept hafter) hnew]
    rw [heq] at hadjacency ⊢
    refine splices_of_edges rfl rfl rfl rfl ?_ hadjacency
    dsimp only
    rw [addNode_edges]
    exact .appended hnone
  · obtain ⟨old, hold⟩ := List.length_eq_one_iff.mp hlen
    obtain ⟨front, back, hedges, herase⟩ := edges_of_edgesFrom hold
    have hmem : old ∈ g.edges := by
      rw [hedges]
      exact List.mem_append_right _ List.mem_cons_self
    have hto := hkept (hg.endpoints old hmem).2
    -- the edge is erased, and two take its place
    let cut : FlowGraph M := { g.addNode newNode with
      edges := (g.addNode newNode).edges.eraseP (·.fromNode = afterId)
      adjacency := HashMap.modify afterId (·.erase old.toNode) (g.addNode newNode).adjacency }
    have hsplice := connect_of_mem cut ⟨afterId, newNode.id, old.edgeType, old.condition⟩ (hkept hafter) hnew
    let spliced : FlowGraph M := { cut with
      adjacency := pushAdjacent cut.adjacency afterId newNode.id
      edges := cut.edges ++ [⟨afterId, newNode.id, old.edgeType, old.condition⟩] }
    have hrejoin := connect_of_mem spliced ⟨newNode.id, old.toNode, .sequential, none⟩ hnew hto
    have heq : (g.insertAfter afterId newNode).1 = { g.addNode newNode with
        adjacency := pushAdjacent (pushAdjacent (HashMap.modify afterId (·.erase old.toNode)
          (g.addNode newNode).adjacency) afterId newNode.id) newNode.id old.toNode
        edges := (g.addNode newNode).edges.eraseP (·.fromNode = afterId) ++
          [⟨afterId, newNode.id, old.edgeType, old.condition⟩] ++ [⟨newNode.id, old.toNode, .sequential, none⟩] } := by
      rw [insertAfter, if_neg (not_not.mpr hafter), hold]
      dsimp only
      rw [hsplice]
      exact congrArg Prod.fst hrejoin
    rw [heq] at hadjacency ⊢
    refine splices_of_edges rfl rfl rfl rfl ?_ hadjacency
    dsimp only
    rw [addNode_edges, herase, List.append_assoc]
    exact .spliced hedges hold

theorem edges_around {id : NodeId} {front back : List Edge} {old : Edge} (hedges : g.edges = front ++ old :: back)
    (honly : g.edgesFrom id = [old]) :
    old.fromNode = id ∧ (∀ edge, edge ∈ front ++ back ↔ edge ∈ g.edges ∧ edge.fromNode ≠ id) ∧ old ∈ g.edges := by
  have hold : old ∈ g.edgesFrom id := by
    rw [honly]
    exact List.mem_singleton_self old
  obtain ⟨hmem, hid⟩ := List.mem_filter.mp hold
  have hnone : (front ++ back).filter (·.fromNode = id) = [] := by
    rw [edgesFrom, hedges, List.filter_append, List.filter_cons_of_pos (by exact hid)] at honly
    have hlen := congrArg List.length honly
    rw [List.length_append, List.length_cons, List.length_singleton] at hlen
    rw [List.filter_append]
    exact List.length_eq_zero_iff.mp (by rw [List.length_append]; omega)
  have hne : ∀ edge ∈ front ++ back, edge.fromNode ≠ id := fun edge hedge heq =>
    List.filter_eq_nil_iff.mp hnone edge hedge (decide_eq_true heq)
  refine ⟨of_decide_eq_true hid, fun edge => ?_, hmem⟩
  constructor
  · intro hedge
    refine ⟨?_, hne edge hedge⟩
    rw [hedges, List.mem_append, List.mem_cons]
    exact (List.mem_append.mp hedge).imp_right .inr
  · rintro ⟨hedge, heq⟩
    rw [hedges, List.mem_append, List.mem_cons] at hedge
    rcases hedge with hfront | rfl | hback
    · exact List.mem_append_left _ hfront
    · exact absurd (of_decide_eq_true hid) heq
    · exact List.mem_append_right _ hback

theorem SplicedEdges.mem {afterId newId : NodeId} {edges : List Edge} (h : g.SplicedEdges afterId newId edges) :
    ∃ spliceIn : Edge, spliceIn.fromNode = afterId ∧ spliceIn.toNode = newId ∧ ∀ edge, edge ∈ edges ↔
      edge ∈ g.edges ∧ edge.fromNode ≠ afterId ∨ edge = spliceIn ∨
        ∃ old ∈ g.edges, old.fromNode = afterId ∧ edge = ⟨newId, old.toNode, .sequential, none⟩ := by
  cases h with
  | appended hnone =>
    have hout : ∀ edge ∈ g.edges, edge.fromNode ≠ afterId := fun edge hedge hid =>
      List.filter_eq_nil_iff.mp hnone edge hedge (decide_eq_true hid)
    refine ⟨⟨afterId, newId, .sequential, none⟩, rfl, rfl, fun edge => ?_⟩
    rw [List.mem_append, List.mem_singleton]
    constructor
    · rintro (hedge | rfl)
      · exact .inl ⟨hedge, hout edge hedge⟩
      · exact .inr (.inl rfl)
    · rintro (⟨hedge, -⟩ | rfl | ⟨old, hold, hid, -⟩)
      · exact .inl hedge
      · exact .inr rfl
      · exact absurd hid (hout old hold)
  | @spliced front back old hedges honly =>
    obtain ⟨hold, hkept, hmem⟩ := edges_around hedges honly
    refine ⟨⟨afterId, newId, old.edgeType, old.condition⟩, rfl, rfl, fun edge => ?_⟩
    rw [List.mem_append, hkept, List.mem_cons, List.mem_singleton]
    refine or_congr_right (or_congr_right ⟨?_, ?_⟩)
    · rintro rfl
      exact ⟨old, hmem, hold, rfl⟩
    · rintro ⟨edge', hedge', hid', rfl⟩
      by_cases hin : edge' ∈ front ++ back
      · exact absurd hid' ((hkept edge').mp hin).2
      · rw [hedges, List.mem_append, List.mem_cons] at hedge'
        rcases hedge' with hfront | rfl | hback
        · exact absurd (List.mem_append_left _ hfront) hin
        · rfl
        · exact absurd (List.mem_append_right _ hback) hin

theorem SplicedEdges.joins (hg : g.WellFormed) {afterId newId : NodeId} {g' : FlowGraph M}
    (hnew : newId ∉ g.nodes) (h : g.SplicedEdges afterId newId g'.edges) (x y : NodeId) :
    g'.Joins x y ↔ x ≠ afterId ∧ x ≠ newId ∧ g.Joins x y ∨ x = afterId ∧ y = newId ∨ x = newId ∧ g.Joins afterId y := by
  obtain ⟨spliceIn, hfrom, hto, hmem⟩ := h.mem
  constructor
  · rintro ⟨edge, hedge, rfl, rfl⟩
    rcases (hmem edge).mp hedge with ⟨hedge, hne⟩ | rfl | ⟨old, hold, hid, rfl⟩
    · refine .inl ⟨hne, ?_, edge, hedge, rfl, rfl⟩
      rintro rfl
      exact hnew (hg.endpoints edge hedge).1
    · exact .inr (.inl ⟨hfrom, hto⟩)
    · exact .inr (.inr ⟨rfl, old, hold, hid, rfl⟩)
  · rintro (⟨hne, -, edge, hedge, rfl, rfl⟩ | ⟨rfl, rfl⟩ | ⟨rfl, old, hold, hid, rfl⟩)
    · exact ⟨edge, (hmem edge).mpr (.inl ⟨hedge, hne⟩), rfl, rfl⟩
    · exact ⟨spliceIn, (hmem spliceIn).mpr (.inr (.inl rfl)), hfrom, hto⟩
    · exact ⟨_, (hmem _).mpr (.inr (.inr ⟨old, hold, hid, rfl⟩)), rfl, rfl⟩

/-- `insert_after` splices a node into the only edge out of a node, or appends it there; whoever was in the
graph reaches what it reached before. -/
theorem insert_after_splices [Node M] (hg : g.Reachable) (afterId : NodeId) {newNode : GraphNode M}
    (hnew : newNode.id ∉ g.nodes) :
    ((g.insertAfter afterId newNode).2 = .ok () ↔ afterId ∈ g.nodes ∧ (g.edgesFrom afterId).length ≤ 1) ∧
      ((g.insertAfter afterId newNode).2 = .ok () →
        g.Splices afterId newNode (g.insertAfter afterId newNode).1 ∧
          ∀ x ∈ g.nodes, ∀ y ∈ g.nodes,
            Relation.TransGen (g.insertAfter afterId newNode).1.Joins x y ↔ Relation.TransGen g.Joins x y) := by
  have hwf := hg.wellFormed
  have hok : (g.insertAfter afterId newNode).2 = .ok () ↔ afterId ∈ g.nodes ∧ (g.edgesFrom afterId).length ≤ 1 :=
    insertAfter_ok_iff hwf
  refine ⟨hok, fun h => ?_⟩
  obtain ⟨hafter, hout⟩ := hok.mp h
  have hsplices := splices_insertAfter hwf newNode hafter hout
  refine ⟨hsplices, fun x hx y hy => ?_⟩
  have hfresh : ∀ x, ¬ g.Joins x newNode.id := fun x hjoins => hnew (hwf.mem_of_joins hjoins).2
  refine Rewiring.transGen_splice hfresh (hsplices.edges.joins hwf hnew) ?_ ?_
  · exact fun heq => hnew (heq ▸ hx)
  · exact fun heq => hnew (heq ▸ hy)

theorem insert_after_splices_relay :
    let hop : GraphNode StubNode := .new ⟨2⟩ ⟨2, 1, ⟨"stub", .router, .passes⟩⟩ .default
    ((relay.insertAfter ⟨0⟩ hop).2 = .ok () ↔ ⟨0⟩ ∈ relay.nodes ∧ (relay.edgesFrom ⟨0⟩).length ≤ 1) ∧
      ((relay.insertAfter ⟨0⟩ hop).2 = .ok () →
        relay.Splices ⟨0⟩ hop (relay.insertAfter ⟨0⟩ hop).1 ∧
          ∀ x ∈ relay.nodes, ∀ y ∈ relay.nodes,
            Relation.TransGen (relay.insertAfter ⟨0⟩ hop).1.Joins x y ↔ Relation.TransGen relay.Joins x y) :=
  insert_after_splices (stubGraph_reachable _ _) ⟨0⟩ (by decide)

def bridgeEdge (pair : NodeId × NodeId) : Edge := ⟨pair.1, pair.2, .sequential, none⟩

theorem connectAll_of_mem (g : FlowGraph M) {pairs : List (NodeId × NodeId)}
    (h : ∀ pair ∈ pairs, pair.1 ∈ g.nodes ∧ pair.2 ∈ g.nodes) : ∃ adjacency,
      g.connectAll pairs = ({ g with
        adjacency := adjacency
        edges := g.edges ++ pairs.map bridgeEdge }, .ok ()) := by
  induction pairs generalizing g with
  | nil =>
    refine ⟨g.adjacency, ?_⟩
    rw [connectAll, List.map_nil, List.append_nil]
  | cons pair pairs ih =>
    obtain ⟨hends, hrest⟩ := List.forall_mem_cons.mp h
    have hconnect := connect_of_mem g (bridgeEdge pair) hends.1 hends.2
    obtain ⟨adjacency, hall⟩ := ih (g.connect (bridgeEdge pair)).1 (by rwa [connect_nodes])
    refine ⟨adjacency, ?_⟩
    rw [connectAll_cons, if_pos hends]
    refine hall.trans ?_
    rw [hconnect]
    dsimp only
    rw [List.append_assoc]
    rfl

/-- What `remove_and_reconnect` makes of a graph. -/
structure Bridges (g : FlowGraph M) (id : NodeId) (g' : FlowGraph M) : Prop where
  edges : g'.edges = g.edges.filter (fun edge => edge.fromNode ≠ id ∧ edge.toNode ≠ id) ++
    (g.edges.filter (·.toNode = id)).flatMap fun incoming =>
      (g.edgesFrom id).map fun outgoing => ⟨incoming.fromNode, outgoing.toNode, .sequential, none⟩
  nodes : g'.nodes = g.nodes.erase id
  allowedFeedbackEdges : g'.allowedFeedbackEdges = g.allowedFeedbackEdges
  entryPoints : g'.entryPoints = g.entryPoints.filter (· ≠ id)
  exitPoints : g'.exitPoints = g.exitPoints.filter (· ≠ id)

theorem map_bridges (g : FlowGraph M) (id : NodeId) : (g.bridges id).map bridgeEdge =
    (g.edges.filter (·.toNode = id)).flatMap fun incoming =>
      (g.edgesFrom id).map fun outgoing => ⟨incoming.fromNode, outgoing.toNode, .sequential, none⟩ := by
  simp only [bridges, predecessors, successors, List.map_flatMap, List.flatMap_map, List.map_map]
  rfl

theorem bridges_removeAndReconnect {id : NodeId} {g' : FlowGraph M} {removed : GraphNode M}
    (h : g.removeAndReconnect id = (g', .ok removed)) : g.Bridges id g' ∧ ¬ g.Joins id id ∧
      ¬ (1 < (g.predecessors id).length ∧ 1 < (g.successors id).length) := by
  have hnode := (removeAndReconnect_ok h).1
  have hid : id ∈ g.nodes := HashMap.mem_of_lookup hnode
  have hfew : ¬ (1 < (g.predecessors id).length ∧ 1 < (g.successors id).length) := by
    intro hmany
    obtain ⟨error, hearly⟩ := removeAndReconnect_early (.inr hmany)
    rw [hearly] at h
    cases (Prod.mk.inj h).2
  have hbridges : ∀ pair ∈ g.bridges id, pair.1 ∈ g.nodes.erase id ∧ pair.2 ∈ g.nodes.erase id := by
    refine (removeAndReconnect_late hid hfew).2.mp ?_
    rw [h]
    rfl
  have hremove : g.removeNode id = ((g.removeNode id).1, some removed) := by
    rw [removeNode, show g.nodes.lookup id = some removed from hnode]
  have hnodes : (g.removeNode id).1.nodes = g.nodes.erase id := by
    obtain ⟨g₁, hg₁, hnodes⟩ := removeNode_nodes hnode
    rw [hg₁, hnodes]
  obtain ⟨adjacency, hall⟩ := connectAll_of_mem (g.removeNode id).1 (hnodes ▸ hbridges)
  rw [removeAndReconnect_eq hfew hid hremove, hall] at h
  rw [← (Prod.mk.inj h).1, map_bridges]
  refine ⟨?_, ?_, hfew⟩
  · constructor
    all_goals
      unfold removeNode
      rw [show g.nodes.lookup id = some removed from hnode]
  · intro hloop
    have hself := (hbridges (id, id) (mem_bridges.mpr ⟨hloop, hloop⟩)).1
    exact (AList.mem_erase.mp hself).1 rfl

theorem Bridges.joins {id : NodeId} {g' : FlowGraph M} (h : g.Bridges id g') (hloop : ¬ g.Joins id id) (x y : NodeId) :
    g'.Joins x y ↔ x ≠ id ∧ y ≠ id ∧ (g.Joins x y ∨ g.Joins x id ∧ g.Joins id y) := by
  have hmem : ∀ edge, edge ∈ g'.edges ↔ edge ∈ g.edges ∧ edge.fromNode ≠ id ∧ edge.toNode ≠ id ∨
      ∃ pair ∈ g.bridges id, bridgeEdge pair = edge := by
    intro edge
    rw [h.edges, ← map_bridges, List.mem_append, List.mem_filter, List.mem_map, decide_eq_true_eq]
  constructor
  · rintro ⟨edge, hedge, rfl, rfl⟩
    rcases (hmem edge).mp hedge with ⟨hold, hfrom, hto⟩ | ⟨⟨p, s⟩, hpair, rfl⟩
    · exact ⟨hfrom, hto, .inl ⟨edge, hold, rfl, rfl⟩⟩
    · obtain ⟨hp, hs⟩ := mem_bridges.mp hpair
      refine ⟨?_, ?_, .inr ⟨hp, hs⟩⟩
      · rintro rfl
        exact hloop hp
      · rintro rfl
        exact hloop hs
  · rintro ⟨hx, hy, ⟨edge, hedge, rfl, rfl⟩ | hbridge⟩
    · exact ⟨edge, (hmem edge).mpr (.inl ⟨hedge, hx, hy⟩), rfl, rfl⟩
    · exact ⟨bridgeEdge (x, y), (hmem _).mpr (.inr ⟨(x, y), mem_bridges.mpr hbridge, rfl⟩), rfl, rfl⟩

/-- `remove_and_reconnect` takes a node out, with one edge for each pair of an edge into it and an edge out
of it; whoever stays reaches what it reached before. -/
theorem remove_and_reconnect_bridges {id : NodeId} {g' : FlowGraph M} {removed : GraphNode M}
    (h : g.removeAndReconnect id = (g', .ok removed)) :
    g.Bridges id g' ∧ g.node id = some removed ∧
      ∀ x ∈ g'.nodes, ∀ y ∈ g'.nodes, Relation.TransGen g'.Joins x y ↔ Relation.TransGen g.Joins x y := by
  obtain ⟨hbridges, hloop, -⟩ := bridges_removeAndReconnect h
  refine ⟨hbridges, (removeAndReconnect_ok h).1, fun x hx y hy => ?_⟩
  rw [hbridges.nodes] at hx hy
  exact Rewiring.transGen_bridge (hbridges.joins hloop) (AList.mem_erase.mp hx).1 (AList.mem_erase.mp hy).1

theorem remove_and_reconnect_bridges_line :
    let line := stubGraph [(.source, .passes), (.router, .passes), (.sink, .passes)]
      [(0, 1, .sequential), (1, 2, .conditional)]
    let g' := (line.removeAndReconnect ⟨1⟩).1
    let removed : GraphNode StubNode := .new ⟨1⟩ ⟨1, 1, ⟨"stub", .router, .passes⟩⟩ .default
    line.Bridges ⟨1⟩ g' ∧ line.node ⟨1⟩ = some removed ∧
      ∀ x ∈ g'.nodes, ∀ y ∈ g'.nodes, Relation.TransGen g'.Joins x y ↔ Relation.TransGen line.Joins x y :=
  remove_and_reconnect_bridges (Prod.ext rfl rfl)

end FlowGraph
end Nyarix
