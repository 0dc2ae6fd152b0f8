import Nyarix.Graph.Splicing

/-! What `diff` reports of two graphs, and what it reports of a graph and the one that an edit made of it. -/

namespace Nyarix

def Edge.key (edge : Edge) : NodeId × NodeId × EdgeType := (edge.fromNode, edge.toNode, edge.edgeType)

/-- The lists that the source collects from hash sets have no order of their own. -/
@[ext]
structure GraphDiff where
  addedNodes : Finset NodeId
  removedNodes : Finset NodeId
  changedNodes : Finset NodeId
  addedEdges : Finset (NodeId × NodeId × EdgeType)
  removedEdges : Finset (NodeId × NodeId × EdgeType)
  deriving DecidableEq

namespace FlowGraph
variable {M : Type} {g g' : FlowGraph M}

def instanceAt (g : FlowGraph M) (id : NodeId) : Option Nat := (g.node id).map (·.module.ptr)

def edgeKeys (g : FlowGraph M) : Finset (NodeId × NodeId × EdgeType) := (g.edges.map Edge.key).toFinset

def diff (g other : FlowGraph M) : GraphDiff where
  addedNodes := other.nodeIds.toFinset \ g.nodeIds.toFinset
  removedNodes := g.nodeIds.toFinset \ other.nodeIds.toFinset
  changedNodes := (g.nodeIds.toFinset ∩ other.nodeIds.toFinset).filter fun id => g.instanceAt id ≠ other.instanceAt id
  addedEdges := other.edgeKeys \ g.edgeKeys
  removedEdges := g.edgeKeys \ other.edgeKeys

theorem mem_nodeIds_iff {id : NodeId} : id ∈ g.nodeIds.toFinset ↔ g.instanceAt id ≠ none := by
  rw [List.mem_toFinset, instanceAt, ne_eq, Option.map_eq_none_iff,
    show g.node id = none ↔ id ∉ g.nodes from AList.lookup_eq_none, not_not]
  exact AList.mem_keys.symm

theorem instanceAt_ne_none {id : NodeId} : g.instanceAt id ≠ none ↔ id ∈ g.nodes := by
  rw [← mem_nodeIds_iff, List.mem_toFinset]
  exact AList.mem_keys.symm

theorem mem_edgeKeys {key : NodeId × NodeId × EdgeType} : key ∈ g.edgeKeys ↔ ∃ edge ∈ g.edges, edge.key = key := by
  rw [edgeKeys, List.mem_toFinset, List.mem_map]

theorem mem_addedNodes {id : NodeId} : id ∈ (g.diff g').addedNodes ↔ g.instanceAt id = none ∧ g'.instanceAt id ≠ none := by
  rw [diff, Finset.mem_sdiff, mem_nodeIds_iff, mem_nodeIds_iff, not_not, and_comm]

theorem mem_removedNodes {id : NodeId} :
    id ∈ (g.diff g').removedNodes ↔ g.instanceAt id ≠ none ∧ g'.instanceAt id = none := by
  rw [diff, Finset.mem_sdiff, mem_nodeIds_iff, mem_nodeIds_iff, not_not]

theorem mem_changedNodes {id : NodeId} : id ∈ (g.diff g').changedNodes ↔
    (g.instanceAt id ≠ none ∧ g'.instanceAt id ≠ none) ∧ g.instanceAt id ≠ g'.instanceAt id := by
  rw [diff, Finset.mem_filter, Finset.mem_inter, mem_nodeIds_iff, mem_nodeIds_iff]

/-- Where only one node has got another instance, or lost the one it had, a list of nodes that differ has no
other node. -/
theorem eq_ite_of_update {id : NodeId} {ptr : Option Nat} {named : Finset NodeId} {P : Option Nat → Option Nat → Prop}
    [Decidable (P (g.instanceAt id) ptr)] (hnamed : ∀ x, x ∈ named ↔ P (g.instanceAt x) (g'.instanceAt x))
    (hdiffer : ∀ p, ¬ P p p) (h : ∀ x, g'.instanceAt x = if x = id then ptr else g.instanceAt x) :
    named = if P (g.instanceAt id) ptr then {id} else ∅ := by
  ext x
  rw [hnamed, h x]
  rcases eq_or_ne x id with rfl | hne
  · rw [if_pos rfl]
    split_ifs with hcase
    · exact iff_of_true hcase (Finset.mem_singleton_self x)
    · exact iff_of_false hcase (Finset.notMem_empty x)
  · rw [if_neg hne]
    refine iff_of_false (hdiffer _) ?_
    split_ifs
    · exact fun hx => hne (Finset.mem_singleton.mp hx)
    · exact Finset.notMem_empty x

theorem diff_of_update {id : NodeId} {ptr : Option Nat}
    (h : ∀ x, g'.instanceAt x = if x = id then ptr else g.instanceAt x) :
    (g.diff g').addedNodes = (if g.instanceAt id = none ∧ ptr ≠ none then {id} else ∅) ∧
    (g.diff g').removedNodes = (if g.instanceAt id ≠ none ∧ ptr = none then {id} else ∅) ∧
    (g.diff g').changedNodes =
      if (g.instanceAt id ≠ none ∧ ptr ≠ none) ∧ g.instanceAt id ≠ ptr then {id} else ∅ := by
  refine ⟨?_, ?_, ?_⟩
  · apply eq_ite_of_update (P := fun p q => p = none ∧ q ≠ none) (fun _ => mem_addedNodes) ?_ h
    exact fun p hp => hp.2 hp.1
  · apply eq_ite_of_update (P := fun p q => p ≠ none ∧ q = none) (fun _ => mem_removedNodes) ?_ h
    exact fun p hp => hp.1 hp.2
  · apply eq_ite_of_update (P := fun p q => (p ≠ none ∧ q ≠ none) ∧ p ≠ q) (fun _ => mem_changedNodes) ?_ h
    exact fun p hp => hp.2 rfl

theorem instanceAt_of_nodes (h : g'.nodes = g.nodes) (x : NodeId) : g'.instanceAt x = g.instanceAt x := by
  unfold FlowGraph.instanceAt FlowGraph.node
  rw [h]

theorem instanceAt_of_insert {id : NodeId} {node : GraphNode M} (h : g'.nodes = g.nodes.insert id node) (x : NodeId) :
    g'.instanceAt x = if x = id then some node.module.ptr else g.instanceAt x := by
  unfold FlowGraph.instanceAt FlowGraph.node
  rw [h]
  split_ifs with hx
  · rw [hx, AList.lookup_insert]
    rfl
  · rw [AList.lookup_insert_ne hx]

theorem instanceAt_of_erase {id : NodeId} (h : g'.nodes = g.nodes.erase id) (x : NodeId) :
    g'.instanceAt x = if x = id then none else g.instanceAt x := by
  unfold FlowGraph.instanceAt FlowGraph.node
  rw [h]
  split_ifs with hx
  · rw [hx, AList.lookup_erase]
    rfl
  · rw [AList.lookup_erase_ne hx]

theorem Splices.instanceAt {afterId : NodeId} {newNode : GraphNode M} (h : g.Splices afterId newNode g') (x : NodeId) :
    g'.instanceAt x = if x = newNode.id then some newNode.module.ptr else g.instanceAt x := by
  unfold FlowGraph.instanceAt
  rw [h.node]
  split_ifs
  · rfl
  · rfl

theorem WellFormed.mem_of_edgeKeys (hg : g.WellFormed) {key : NodeId × NodeId × EdgeType} (h : key ∈ g.edgeKeys) :
    key.1 ∈ g.nodes ∧ key.2.1 ∈ g.nodes := by
  obtain ⟨edge, hedge, rfl⟩ := mem_edgeKeys.mp h
  exact hg.endpoints edge hedge

theorem SplicedEdges.edgeKeys {afterId newId : NodeId} {old : Edge} (h : g.SplicedEdges afterId newId g'.edges)
    (honly : g.edgesFrom afterId = [old]) : g'.edgeKeys =
      insert (afterId, newId, old.edgeType) (insert (newId, old.toNode, .sequential) (g.edgeKeys.erase old.key)) := by
  generalize hedges' : g'.edges = edges at h
  cases h with
  | appended hnone =>
    rw [hnone] at honly
    cases honly
  | @spliced front back old' hedges honly' =>
    -- As the only edge out of the node, the old one is the only edge with its key.
    obtain rfl : old' = old := by
      rw [honly'] at honly
      exact (List.cons.inj honly).1
    obtain ⟨hold, hkept, -⟩ := edges_around hedges honly
    ext key
    have hrest : (∃ edge ∈ front ++ back, edge.key = key) ↔ key ≠ old'.key ∧ key ∈ g.edgeKeys := by
      rw [mem_edgeKeys]
      constructor
      · rintro ⟨edge, hedge, rfl⟩
        obtain ⟨hmem, hne⟩ := (hkept edge).mp hedge
        exact ⟨fun heq => hne ((congrArg Prod.fst heq).trans hold), edge, hmem, rfl⟩
      · rintro ⟨hne, edge, hmem, rfl⟩
        refine ⟨edge, (hkept edge).mpr ⟨hmem, fun hfrom => hne ?_⟩, rfl⟩
        have hfrom : edge ∈ g.edgesFrom afterId := List.mem_filter.mpr ⟨hmem, decide_eq_true hfrom⟩
        rw [honly, List.mem_singleton] at hfrom
        rw [hfrom]
    rw [Finset.mem_insert, Finset.mem_insert, Finset.mem_erase, ← hrest, mem_edgeKeys, hedges']
    simp only [List.mem_append (s := front ++ back), List.mem_cons, List.not_mem_nil, or_false, or_and_right, exists_or,
      exists_eq_left, Edge.key, eq_comm (b := key)]
    rw [or_comm, or_assoc]

theorem Bridges.edgeKeys {id : NodeId} (h : g.Bridges id g') : g'.edgeKeys =
    g.edgeKeys.filter (fun key => key.1 ≠ id ∧ key.2.1 ≠ id) ∪ ((g.bridges id).map fun pair => (bridgeEdge pair).key).toFinset := by
  ext key
  rw [Finset.mem_union, Finset.mem_filter, List.mem_toFinset, mem_edgeKeys, mem_edgeKeys, h.edges, ← map_bridges]
  simp only [List.mem_append, or_and_right, exists_or, List.mem_map, exists_exists_and_eq_and]
  refine or_congr ?_ Iff.rfl
  constructor
  · rintro ⟨edge, hedge, rfl⟩
    obtain ⟨hmem, hends⟩ := List.mem_filter.mp hedge
    exact ⟨⟨edge, hmem, rfl⟩, of_decide_eq_true hends⟩
  · rintro ⟨⟨edge, hmem, rfl⟩, hends⟩
    exact ⟨edge, List.mem_filter.mpr ⟨hmem, decide_eq_true hends⟩, rfl⟩

theorem SplicedEdges.edgeKeys_of_none {afterId newId : NodeId} (h : g.SplicedEdges afterId newId g'.edges)
    (hnone : g.edgesFrom afterId = []) : g'.edgeKeys = insert (afterId, newId, .sequential) g.edgeKeys := by
  generalize hedges' : g'.edges = edges at h
  cases h with
  | appended =>
    ext key
    rw [Finset.mem_insert, mem_edgeKeys, mem_edgeKeys, hedges']
    simp only [List.mem_append, List.mem_singleton, or_and_right, exists_or, exists_eq_left, Edge.key, eq_comm (b := key)]
    exact or_comm
  | spliced hedges honly =>
    rw [hnone] at honly
    cases honly

theorem Splices.diff_eq (hg : g.WellFormed) {afterId : NodeId} {newNode : GraphNode M} (hnew : newNode.id ∉ g.nodes)
    (h : g.Splices afterId newNode g') :
    (∀ old, g.edgesFrom afterId = [old] → g.diff g' = ⟨{newNode.id}, ∅, ∅,
      {(afterId, newNode.id, old.edgeType), (newNode.id, old.toNode, .sequential)}, {old.key}⟩) ∧
    (g.edgesFrom afterId = [] → g.diff g' = ⟨{newNode.id}, ∅, ∅, {(afterId, newNode.id, .sequential)}, ∅⟩) := by
  have hempty : g.instanceAt newNode.id = none := not_not.mp fun hsome => hnew (instanceAt_ne_none.mp hsome)
  obtain ⟨hadded, hremoved, hchanged⟩ := diff_of_update h.instanceAt
  rw [hempty] at hadded hremoved hchanged
  rw [if_pos ⟨rfl, Option.some_ne_none _⟩] at hadded
  rw [if_neg fun hcase => hcase.1 rfl] at hremoved
  rw [if_neg fun hcase => hcase.1.1 rfl] at hchanged
  -- No edge of the graph has the new node at an end.
  have hin : ∀ a t, (a, newNode.id, t) ∉ g.edgeKeys := fun a t hmem => hnew (hg.mem_of_edgeKeys hmem).2
  have hout : ∀ b t, (newNode.id, b, t) ∉ g.edgeKeys := fun b t hmem => hnew (hg.mem_of_edgeKeys hmem).1
  constructor
  · intro old honly
    have hkeys := h.edges.edgeKeys honly
    have hold : old.key ∈ g.edgeKeys := by
      refine mem_edgeKeys.mpr ⟨old, ?_, rfl⟩
      exact List.mem_of_mem_filter (honly ▸ List.mem_singleton_self old : old ∈ g.edgesFrom afterId)
    refine GraphDiff.ext hadded hremoved hchanged ?_ ?_
    · change g'.edgeKeys \ g.edgeKeys = _
      rw [hkeys, Finset.insert_sdiff_of_notMem _ (hin _ _), Finset.insert_sdiff_of_notMem _ (hout _ _),
        Finset.sdiff_eq_empty_iff_subset.mpr (Finset.erase_subset _ _)]
      rfl
    · change g.edgeKeys \ g'.edgeKeys = _
      rw [hkeys, Finset.sdiff_insert_of_notMem (hin _ _), Finset.sdiff_insert_of_notMem (hout _ _),
        Finset.sdiff_erase_self hold]
  · intro hnone
    have hkeys := h.edges.edgeKeys_of_none hnone
    refine GraphDiff.ext hadded hremoved hchanged ?_ ?_
    · change g'.edgeKeys \ g.edgeKeys = _
      rw [hkeys, Finset.insert_sdiff_of_notMem _ (hin _ _), Finset.sdiff_self]
      rfl
    · change g.edgeKeys \ g'.edgeKeys = _
      rw [hkeys]
      exact Finset.sdiff_eq_empty_iff_subset.mpr (Finset.subset_insert _ _)

theorem Bridges.diff_eq {id : NodeId} (hid : id ∈ g.nodes) (hloop : ¬ g.Joins id id) (h : g.Bridges id g') :
    g.diff g' = ⟨∅, {id}, ∅, ((g.bridges id).map fun pair => (bridgeEdge pair).key).toFinset \ g.edgeKeys,
      g.edgeKeys.filter fun key => key.1 = id ∨ key.2.1 = id⟩ := by
  have hsome : g.instanceAt id ≠ none := instanceAt_ne_none.mpr hid
  obtain ⟨hadded, hremoved, hchanged⟩ := diff_of_update (instanceAt_of_erase h.nodes)
  rw [if_neg fun hcase => hsome hcase.1] at hadded
  rw [if_pos ⟨hsome, rfl⟩] at hremoved
  rw [if_neg fun hcase => hcase.1.2 rfl] at hchanged
  refine GraphDiff.ext hadded hremoved hchanged ?_ ?_
  · change g'.edgeKeys \ g.edgeKeys = _
    rw [h.edgeKeys, Finset.union_sdiff_distrib, Finset.sdiff_eq_empty_iff_subset.mpr (Finset.filter_subset _ _),
      Finset.empty_union]
  · change g.edgeKeys \ g'.edgeKeys = _
    ext key
    rw [h.edgeKeys, Finset.mem_sdiff, Finset.mem_union, Finset.mem_filter, Finset.mem_filter]
    constructor
    · rintro ⟨hkey, hgone⟩
      refine ⟨hkey, ?_⟩
      by_contra hends
      exact hgone (.inl ⟨hkey, not_or.mp hends⟩)
    · rintro ⟨hkey, hend⟩
      refine ⟨hkey, ?_⟩
      rintro (⟨-, hends⟩ | hbridge)
      · exact hend.elim hends.1 hends.2
      · -- A bridge ends at the node only if an edge led from the node to itself.
        obtain ⟨pair, hpair, rfl⟩ := List.mem_map.mp (List.mem_toFinset.mp hbridge)
        obtain ⟨hpred, hsucc⟩ := mem_bridges.mp hpair
        rcases hend with hfrom | hto
        · exact hloop (hfrom ▸ hpred)
        · exact hloop (hto ▸ hsucc)

theorem diff_swapNode [Node M] {id : NodeId} {newModule : ArcNode M} {outcome : SwapOutcome M}
    (h : g.swapNode id newModule = (g', .returned (.ok outcome))) :
    g.diff g' = ⟨∅, ∅, if outcome.replaced.module.ptr = newModule.ptr then ∅ else {id}, ∅, ∅⟩ := by
  rcases g.swapNode_cases id newModule with ⟨-, hs⟩ | ⟨old, hold, ⟨_, hs⟩ | ⟨r, -, hs⟩⟩
  · rw [hs] at h
    cases h
  · rw [hs] at h
    cases h
  · rw [hs] at h
    obtain ⟨rfl, houtcome⟩ := Prod.mk.inj h
    obtain rfl := Except.ok.inj (Unwind.returned.inj houtcome)
    have hat : g.instanceAt id = some old.module.ptr := by
      rw [FlowGraph.instanceAt, hold]
      rfl
    have hswapped : ∀ x, FlowGraph.instanceAt { g with
        nodes := g.nodes.insert id (.new id newModule old.migrate.1.config) } x =
          if x = id then some newModule.ptr else g.instanceAt x := fun x =>
      instanceAt_of_insert (show FlowGraph.nodes { g with nodes := _ } = _ from rfl) x
    obtain ⟨hadded, hremoved, hchanged⟩ := diff_of_update hswapped
    rw [hat] at hadded hremoved hchanged
    rw [if_neg fun hcase => Option.some_ne_none _ hcase.1] at hadded
    rw [if_neg fun hcase => Option.some_ne_none _ hcase.2] at hremoved
    refine GraphDiff.ext hadded hremoved ?_ (Finset.sdiff_self _) (Finset.sdiff_self _)
    rw [hchanged, GraphNode.migrate_ptr]
    split_ifs with hcase hsame hsame
    · exact absurd (congrArg some hsame) hcase.2
    · rfl
    · rfl
    · refine absurd ⟨⟨Option.some_ne_none _, Option.some_ne_none _⟩, fun heq => hsame ?_⟩ hcase
      exact Option.some.inj heq

/-- What a diff reports of a live edit: of an insertion the node, the edges to and from it and the edge that was
split; of a removal the node, its edges and the bridges that were not there; of a swap the node, unless the very
instance was put back. -/
theorem live_edits_diff [Node M] (hg : g.Reachable) :
    (∀ afterId newNode, newNode.id ∉ g.nodes → (g.insertAfter afterId newNode).2 = .ok () →
      (∀ old, g.edgesFrom afterId = [old] → g.diff (g.insertAfter afterId newNode).1 = ⟨{newNode.id}, ∅, ∅,
        {(afterId, newNode.id, old.edgeType), (newNode.id, old.toNode, .sequential)}, {old.key}⟩) ∧
      (g.edgesFrom afterId = [] → g.diff (g.insertAfter afterId newNode).1 =
        ⟨{newNode.id}, ∅, ∅, {(afterId, newNode.id, .sequential)}, ∅⟩)) ∧
    (∀ id g' removed, g.removeAndReconnect id = (g', .ok removed) → g.diff g' = ⟨∅, {id}, ∅,
      ((g.bridges id).map fun pair => (pair.1, pair.2, .sequential)).toFinset \ g.edgeKeys,
      g.edgeKeys.filter fun key => key.1 = id ∨ key.2.1 = id⟩) ∧
    ∀ id newModule g' outcome, g.swapNode id newModule = (g', .returned (.ok outcome)) → g.diff g' =
      ⟨∅, ∅, if outcome.replaced.module.ptr = newModule.ptr then ∅ else {id}, ∅, ∅⟩ := by
  refine ⟨fun afterId newNode hnew hok => ?_, fun id g' removed h => ?_, fun id newModule g' outcome h => ?_⟩
  · obtain ⟨hafter, hout⟩ := (insertAfter_ok_iff hg.wellFormed).mp hok
    exact (splices_insertAfter hg.wellFormed newNode hafter hout).diff_eq hg.wellFormed hnew
  · obtain ⟨hbridges, hloop, -⟩ := bridges_removeAndReconnect h
    exact hbridges.diff_eq (HashMap.mem_of_lookup (removeAndReconnect_ok h).1) hloop
  · exact diff_swapNode h

theorem live_edits_diff_relay :
    let hop : GraphNode StubNode := .new ⟨2⟩ ⟨2, 1, ⟨"stub", .router, .passes⟩⟩ .default
    relay.diff (relay.insertAfter ⟨0⟩ hop).1 =
      ⟨{⟨2⟩}, ∅, ∅, {(⟨0⟩, ⟨2⟩, .sequential), (⟨2⟩, ⟨1⟩, .sequential)}, {(⟨0⟩, ⟨1⟩, .sequential)}⟩ := by
  intro hop
  have hrelay : relay.Reachable := stubGraph_reachable _ _
  have hsplit := ((live_edits_diff hrelay).1 ⟨0⟩ hop (by decide) rfl).1
  exact hsplit ⟨⟨0⟩, ⟨1⟩, .sequential, none⟩ rfl

end FlowGraph
end Nyarix
