import Nyarix.Graph.Atomicity

/-! Graphs of the same shape, and that every shape a graph can have is built over any nodes. -/

namespace Nyarix
namespace FlowGraph

structure SameTopology {M M' : Type} (g : FlowGraph M) (g' : FlowGraph M') : Prop where
  nodes : ∀ id, id ∈ g'.nodes ↔ id ∈ g.nodes
  edges : g'.edges = g.edges
  entryPoints : g'.entryPoints = g.entryPoints
  exitPoints : g'.exitPoints = g.exitPoints
  allowedFeedbackEdges : g'.allowedFeedbackEdges = g.allowedFeedbackEdges

variable {M M' : Type}

theorem SameTopology.refl (g : FlowGraph M) : g.SameTopology g := ⟨fun _ => Iff.rfl, rfl, rfl, rfl, rfl⟩

theorem sameTopology_modifyNode (g : FlowGraph M) (id : NodeId) (f : GraphNode M → GraphNode M) :
    g.SameTopology (g.modifyNode id f) := ⟨fun _ => HashMap.mem_modify _ _ _ _, rfl, rfl, rfl, rfl⟩

theorem SameTopology.edgesFrom {g : FlowGraph M} {g' : FlowGraph M'} (h : g.SameTopology g') (id : NodeId) :
    g'.edgesFrom id = g.edgesFrom id := congrArg (List.filter _) h.edges

theorem SameTopology.trans {M'' : Type} {g : FlowGraph M} {g' : FlowGraph M'} {g'' : FlowGraph M''}
    (h : g.SameTopology g') (h' : g'.SameTopology g'') : g.SameTopology g'' where
  nodes id := (h'.nodes id).trans (h.nodes id)
  edges := h'.edges.trans h.edges
  entryPoints := h'.entryPoints.trans h.entryPoints
  exitPoints := h'.exitPoints.trans h.exitPoints
  allowedFeedbackEdges := h'.allowedFeedbackEdges.trans h.allowedFeedbackEdges

/-- What a graph has been given so far, with a node of its own for each id. -/
structure BuiltFrom (make : NodeId → GraphNode M) (g : FlowGraph M) (ids entries exits : List NodeId)
    (edges : List Edge) (allowed : Finset (NodeId × NodeId)) : Prop where
  node : ∀ id, g.node id = if id ∈ ids then some (make id) else none
  edges : g.edges = edges
  entryPoints : g.entryPoints = entries
  exitPoints : g.exitPoints = exits
  allowedFeedbackEdges : g.allowedFeedbackEdges = allowed

section Build
variable [Node M] {make : NodeId → GraphNode M} {g : FlowGraph M} {ids entries exits : List NodeId} {edges : List Edge}
  {allowed : Finset (NodeId × NodeId)}

omit [Node M] in
theorem BuiltFrom.mem_nodes (h : BuiltFrom make g ids entries exits edges allowed) {id : NodeId} : id ∈ g.nodes ↔ id ∈ ids := by
  have hnode := h.node id
  rw [← AList.lookup_isSome]
  change (g.node id).isSome ↔ _
  rw [hnode]
  split_ifs with hid
  · exact iff_of_true rfl hid
  · exact iff_of_false Bool.false_ne_true hid

omit [Node M] in
theorem BuiltFrom.addNode (h : BuiltFrom make g ids entries exits edges allowed) {id : NodeId} (hid : (make id).id = id)
    (htype : (make id).nodeType = .transformer) :
    BuiltFrom make (g.addNode (make id)) (ids ++ [id]) entries exits edges allowed := by
  have hadd : g.addNode (make id) = { g with
      nodes := g.nodes.insert id (make id)
      adjacency := if id ∈ g.adjacency then g.adjacency else g.adjacency.insert id [] } := by
    rw [FlowGraph.addNode, htype, hid]
  rw [hadd]
  refine ⟨fun other => ?_, h.edges, h.entryPoints, h.exitPoints, h.allowedFeedbackEdges⟩
  change AList.lookup other (g.nodes.insert id (make id)) = _
  by_cases hother : other = id
  · subst hother
    rw [AList.lookup_insert, if_pos (by simp)]
  · rw [AList.lookup_insert_ne hother]
    simp only [List.mem_append, List.mem_singleton, hother, or_false]
    exact h.node other

omit [Node M] in
theorem BuiltFrom.connect (h : BuiltFrom make g ids entries exits edges allowed) {edge : Edge}
    (hfrom : edge.fromNode ∈ ids) (hto : edge.toNode ∈ ids) :
    BuiltFrom make (g.connect edge).1 ids entries exits (edges ++ [edge]) allowed := by
  rw [FlowGraph.connect, if_neg (not_not.mpr (h.mem_nodes.mpr hfrom)), if_neg (not_not.mpr (h.mem_nodes.mpr hto))]
  exact ⟨h.node, congrArg (· ++ [edge]) h.edges, h.entryPoints, h.exitPoints, h.allowedFeedbackEdges⟩

theorem exists_builtFrom (hid : ∀ id, (make id).id = id) (htype : ∀ id, (make id).nodeType = .transformer)
    (ids : List NodeId) (hentries : entries.Nodup) (hexits : exits.Nodup)
    (hedges : ∀ edge ∈ edges, edge.fromNode ∈ ids ∧ edge.toNode ∈ ids) (allowed : Finset (NodeId × NodeId)) :
    ∃ g : FlowGraph M, g.Reachable ∧ BuiltFrom make g ids entries exits edges allowed := by
  -- nodes first, then marks, then edges: each call builds on what the calls before it have built
  have hnodes : ∃ g : FlowGraph M, g.Reachable ∧ BuiltFrom make g ids [] [] [] ∅ := by
    clear hedges
    induction ids using List.reverseRecOn with
    | nil => exact ⟨new, .new, fun _ => rfl, rfl, rfl, rfl, rfl⟩
    | append_singleton ids id ih =>
      obtain ⟨g, hg, hbuilt⟩ := ih
      exact ⟨g.addNode (make id), .edit (.addNode (make id)) hg, hbuilt.addNode (hid id) (htype id)⟩
  have hmarked : ∃ g : FlowGraph M, g.Reachable ∧ BuiltFrom make g ids entries [] [] ∅ := by
    induction entries using List.reverseRecOn with
    | nil => exact hnodes
    | append_singleton entries id ih =>
      rw [List.nodup_append'] at hentries
      obtain ⟨g, hg, hbuilt⟩ := ih hentries.1
      have hnew : id ∉ g.entryPoints := by
        rw [hbuilt.entryPoints]
        exact fun hmem => hentries.2.2 hmem (List.mem_singleton_self id)
      refine ⟨g.markEntryPoint id, .edit (.markEntryPoint id) hg, ?_⟩
      rw [markEntryPoint, if_neg hnew]
      exact { hbuilt with entryPoints := congrArg (· ++ [id]) hbuilt.entryPoints }
  have hended : ∃ g : FlowGraph M, g.Reachable ∧ BuiltFrom make g ids entries exits [] ∅ := by
    induction exits using List.reverseRecOn with
    | nil => exact hmarked
    | append_singleton exits id ih =>
      rw [List.nodup_append'] at hexits
      obtain ⟨g, hg, hbuilt⟩ := ih hexits.1
      have hnew : id ∉ g.exitPoints := by
        rw [hbuilt.exitPoints]
        exact fun hmem => hexits.2.2 hmem (List.mem_singleton_self id)
      refine ⟨g.markExitPoint id, .edit (.markExitPoint id) hg, ?_⟩
      rw [markExitPoint, if_neg hnew]
      exact { hbuilt with exitPoints := congrArg (· ++ [id]) hbuilt.exitPoints }
  have hjoined : ∃ g : FlowGraph M, g.Reachable ∧ BuiltFrom make g ids entries exits edges ∅ := by
    induction edges using List.reverseRecOn with
    | nil => exact hended
    | append_singleton edges edge ih =>
      obtain ⟨g, hg, hbuilt⟩ := ih fun e he => hedges e (List.mem_append_left _ he)
      obtain ⟨hfrom, hto⟩ := hedges edge (by simp)
      exact ⟨(g.connect edge).1, .edit (.connect edge) hg, hbuilt.connect hfrom hto⟩
  induction allowed using Finset.induction_on with
  | empty => exact hjoined
  | insert pair allowed _ ih =>
    obtain ⟨g, hg, hbuilt⟩ := ih
    refine ⟨g.allowFeedbackEdge pair.1 pair.2, .edit (.allowFeedbackEdge pair.1 pair.2) hg, ?_⟩
    exact { hbuilt with allowedFeedbackEdges := congrArg (insert pair) hbuilt.allowedFeedbackEdges }

theorem exists_sameTopology {g : FlowGraph M'} (h : g.WellFormed) (hid : ∀ id, (make id).id = id)
    (htype : ∀ id, (make id).nodeType = .transformer) :
    ∃ g' : FlowGraph M, g'.Reachable ∧ g.SameTopology g' ∧ ∀ id node, g'.node id = some node → node = make id := by
  obtain ⟨g', hg', hbuilt⟩ := exists_builtFrom hid htype g.nodeIds h.entryNodup h.exitNodup
    (fun edge hedge => (h.endpoints edge hedge).imp AList.mem_keys.mp AList.mem_keys.mp) g.allowedFeedbackEdges
  refine ⟨g', hg', ⟨fun id => ?_, hbuilt.edges, hbuilt.entryPoints, hbuilt.exitPoints, hbuilt.allowedFeedbackEdges⟩, ?_⟩
  · exact hbuilt.mem_nodes.trans AList.mem_keys.symm
  · intro id node hnode
    rw [hbuilt.node] at hnode
    split_ifs at hnode
    exact (Option.some.inj hnode).symm

end Build
end FlowGraph
end Nyarix
