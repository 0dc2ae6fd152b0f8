import Nyarix.Graph.Diff
import Nyarix.Lib.Fold

/-! Which call of a run a diff tells of: the last one that changed what it reports, and what that call did
on the graph it met, whether it succeeded or failed half-way. -/

namespace Nyarix
open Fold

namespace GraphCall
variable {M : Type}

/-- On the graph it meets, the call puts an instance at a node. -/
def Installs (met : FlowGraph M) : GraphCall M → NodeId → Nat → Prop
  | .addNode node, id, ptr => node.id = id ∧ node.module.ptr = ptr
  | .insertAfter afterId newNode, id, ptr => afterId ∈ met.nodes ∧ newNode.id = id ∧ newNode.module.ptr = ptr
  | .swapNode id' newModule, id, ptr => id' ∈ met.nodes ∧ id' = id ∧ newModule.ptr = ptr
  | _, _, _ => False

def Drops (met : FlowGraph M) : GraphCall M → NodeId → Prop
  | .removeNode id', id | .removeAndReconnect id', id => id' ∈ met.nodes ∧ id' = id
  | _, _ => False

/-- On the graph it meets, the call joins two nodes by an edge of a type: its own edge, a half of the edge
that it splits, or a bridge over the node that it removes. -/
def Links (met : FlowGraph M) : GraphCall M → NodeId × NodeId × EdgeType → Prop
  | .connect edge, key => edge.fromNode ∈ met.nodes ∧ edge.toNode ∈ met.nodes ∧ key = edge.key
  | .insertAfter afterId newNode, key => afterId ∈ met.nodes ∧
    (met.edgesFrom afterId = [] ∧ key = (afterId, newNode.id, .sequential) ∨
      ∃ old, met.edgesFrom afterId = [old] ∧
        (key = (afterId, newNode.id, old.edgeType) ∨ key = (newNode.id, old.toNode, .sequential)))
  | .removeAndReconnect id, key => id ∈ met.nodes ∧ ∃ pair ∈ met.bridges id, key = (pair.1, pair.2, .sequential)
  | _, _ => False

/-- On the graph it meets, the call takes out an edge: one of the node that it removes, the first of those
between two nodes, or the edge that it splits. -/
def Cuts (met : FlowGraph M) : GraphCall M → NodeId × NodeId × EdgeType → Prop
  | .removeNode id, key | .removeAndReconnect id, key => id ∈ met.nodes ∧ (key.1 = id ∨ key.2.1 = id)
  | .disconnect fromNode toNode, key => ∃ edge,
    met.edges.find? (fun edge => edge.fromNode = fromNode ∧ edge.toNode = toNode) = some edge ∧ key = edge.key
  | .insertAfter afterId _, key => ∃ old, met.edgesFrom afterId = [old] ∧ key = old.key
  | _, _ => False

def Leaves (met : FlowGraph M) (call : GraphCall M) (id : NodeId) (stands : Option Nat) : Prop :=
  stands = met.instanceAt id ∨ (∃ ptr, call.Installs met id ptr ∧ stands = some ptr) ∨
    call.Drops met id ∧ stands = none

end GraphCall

namespace FlowGraph
variable {M : Type} {g g' : FlowGraph M} {call : GraphCall M}

section Instances
variable {id' : NodeId}

theorem leaves_of_same (h : g'.nodes = g.nodes) (id : NodeId) : call.Leaves g id (g'.instanceAt id) :=
  .inl (instanceAt_of_nodes h id)

theorem leaves_of_insert (call : GraphCall M) {node : GraphNode M} (h : g'.nodes = g.nodes.insert id' node)
    (hinstalls : call.Installs g id' node.module.ptr) (id : NodeId) : call.Leaves g id (g'.instanceAt id) := by
  have hat := instanceAt_of_insert h id
  split_ifs at hat with hid
  · exact .inr (.inl ⟨_, hid ▸ hinstalls, hat⟩)
  · exact .inl hat

theorem leaves_of_erase (call : GraphCall M) (h : g'.nodes = g.nodes.erase id') (hdrops : call.Drops g id')
    (id : NodeId) : call.Leaves g id (g'.instanceAt id) := by
  have hat := instanceAt_of_erase h id
  split_ifs at hat with hid
  · exact .inr (.inr ⟨hid ▸ hdrops, hat⟩)
  · exact .inl hat

theorem leaves_removeNode (g : FlowGraph M) (id' id : NodeId) :
    (GraphCall.removeNode id' : GraphCall M).Leaves g id ((g.removeNode id').1.instanceAt id) := by
  cases hnode : g.node id' with
  | none =>
    rw [removeNode_none hnode]
    exact .inl rfl
  | some node =>
    obtain ⟨g', hremove, hnodes⟩ := removeNode_nodes hnode
    rw [hremove]
    exact leaves_of_erase (.removeNode id') hnodes ⟨HashMap.mem_of_lookup hnode, rfl⟩ id

theorem leaves_insertAfter (g : FlowGraph M) (afterId : NodeId) (newNode : GraphNode M) (id : NodeId) :
    (GraphCall.insertAfter afterId newNode).Leaves g id ((g.insertAfter afterId newNode).1.instanceAt id) := by
  by_cases hafter : afterId ∈ g.nodes
  · rcases g.insertAfter_nodes afterId newNode with hnodes | hnodes
    · exact leaves_of_same hnodes id
    · exact leaves_of_insert (.insertAfter afterId newNode) hnodes ⟨hafter, rfl, rfl⟩ id
  · rw [insertAfter, if_pos hafter]
    exact .inl rfl

theorem leaves_removeAndReconnect (g : FlowGraph M) (id' id : NodeId) :
    (GraphCall.removeAndReconnect id' : GraphCall M).Leaves g id ((g.removeAndReconnect id').1.instanceAt id) := by
  by_cases hid : id' ∈ g.nodes
  · rcases g.removeAndReconnect_nodes id' with hnodes | hnodes
    · exact leaves_of_same hnodes id
    · exact leaves_of_erase (.removeAndReconnect id') hnodes ⟨hid, rfl⟩ id
  · obtain ⟨error, hearly⟩ := removeAndReconnect_early (.inl hid)
    rw [hearly]
    exact .inl rfl

theorem leaves_swapNode [Node M] (g : FlowGraph M) (id' : NodeId) (newModule : ArcNode M) (id : NodeId) :
    (GraphCall.swapNode id' newModule).Leaves g id ((g.swapNode id' newModule).1.instanceAt id) := by
  rcases g.swapNode_cases id' newModule with ⟨-, hs⟩ | ⟨old, hold, ⟨reason, hs⟩ | ⟨r, -, hs⟩⟩ <;> rw [hs]
  · exact .inl rfl
  · -- a panic of the old module leaves its instance where it was
    have hat : ({ g with nodes := g.nodes.insert id' old.migrate.1 } : FlowGraph M).instanceAt id =
        if id = id' then some old.migrate.1.module.ptr else g.instanceAt id :=
      instanceAt_of_insert rfl id
    split_ifs at hat with hid
    · left
      rw [hat, hid, FlowGraph.instanceAt, hold, GraphNode.migrate_ptr]
      rfl
    · exact .inl hat
  · have hinserted : ({ g with nodes := g.nodes.insert id' (.new id' newModule old.migrate.1.config) } :
        FlowGraph M).nodes = g.nodes.insert id' (.new id' newModule old.migrate.1.config) := rfl
    exact leaves_of_insert (.swapNode id' newModule) hinserted ⟨HashMap.mem_of_lookup hold, rfl, rfl⟩ id

theorem leaves_edit [Node M] (g : FlowGraph M) (call : GraphCall M) (id : NodeId) :
    call.Leaves g id ((g.edit call).instanceAt id) := by
  cases call with
  | addNode node => exact leaves_of_insert (.addNode node) (g.addNode_nodes node) ⟨rfl, rfl⟩ id
  | removeNode id' => exact g.leaves_removeNode id' id
  | connect edge => exact leaves_of_same (g.connect_nodes edge) id
  | disconnect fromNode toNode =>
    refine leaves_of_same ?_ id
    rw [edit, disconnect]
    split <;> rfl
  | markEntryPoint id' =>
    refine leaves_of_same ?_ id
    rw [edit, markEntryPoint, apply_ite FlowGraph.nodes, ite_self]
  | markExitPoint id' =>
    refine leaves_of_same ?_ id
    rw [edit, markExitPoint, apply_ite FlowGraph.nodes, ite_self]
  | allowFeedbackEdge fromNode toNode => exact .inl rfl
  | insertAfter afterId newNode => exact g.leaves_insertAfter afterId newNode id
  | removeAndReconnect id' => exact g.leaves_removeAndReconnect id' id
  | swapNode id' newModule => exact g.leaves_swapNode id' newModule id

end Instances

structure Within {K : Type} (before after : Finset K) (links cuts : K → Prop) : Prop where
  linked : ∀ key ∈ after, key ∈ before ∨ links key
  cut : ∀ key ∈ before, key ∈ after ∨ cuts key

section Within
variable {K : Type} {before between after : Finset K} {links cuts : K → Prop}

theorem Within.refl (keys : Finset K) : Within keys keys links cuts := ⟨fun _ h => .inl h, fun _ h => .inl h⟩

theorem Within.trans (h : Within before between links cuts) (h' : Within between after links cuts) :
    Within before after links cuts := by
  constructor
  · intro key hkey
    rcases h'.linked key hkey with hbetween | hlinks
    · exact h.linked key hbetween
    · exact .inr hlinks
  · intro key hkey
    rcases h.cut key hkey with hbetween | hcuts
    · exact h'.cut key hbetween
    · exact .inr hcuts

end Within

section Edges
variable {links cuts : NodeId × NodeId × EdgeType → Prop}

theorem within_of_edges (hlinked : ∀ edge ∈ g'.edges, edge ∈ g.edges ∨ links edge.key)
    (hcut : ∀ edge ∈ g.edges, edge ∈ g'.edges ∨ cuts edge.key) : Within g.edgeKeys g'.edgeKeys links cuts := by
  constructor
  · intro key hkey
    obtain ⟨edge, hedge, rfl⟩ := mem_edgeKeys.mp hkey
    exact (hlinked edge hedge).imp_left fun hmem => mem_edgeKeys.mpr ⟨edge, hmem, rfl⟩
  · intro key hkey
    obtain ⟨edge, hedge, rfl⟩ := mem_edgeKeys.mp hkey
    exact (hcut edge hedge).imp_left fun hmem => mem_edgeKeys.mpr ⟨edge, hmem, rfl⟩

theorem within_of_same (h : g'.edges = g.edges) : Within g.edgeKeys g'.edgeKeys links cuts :=
  within_of_edges (fun _ hedge => .inl (h ▸ hedge)) fun _ hedge => .inl (h ▸ hedge)

theorem within_connect (g : FlowGraph M) (edge : Edge) (hlinks : edge.fromNode ∈ g.nodes → edge.toNode ∈ g.nodes →
    links edge.key) : Within g.edgeKeys (g.connect edge).1.edgeKeys links cuts := by
  cases hr : (g.connect edge).2 with
  | error e => exact within_of_same (by rw [connect_error hr])
  | ok =>
    obtain ⟨hfrom, hto⟩ := (connect_ok_iff g edge).mp hr
    rw [connect_of_mem g edge hfrom hto]
    refine within_of_edges (fun e he => ?_) fun e he => .inl (List.mem_append_left _ he)
    rcases List.mem_append.mp he with hold | hnew
    · exact .inl hold
    · rw [List.mem_singleton.mp hnew]
      exact .inr (hlinks hfrom hto)

theorem within_connectAll (g : FlowGraph M) (pairs : List (NodeId × NodeId))
    (hlinks : ∀ pair ∈ pairs, links (pair.1, pair.2, .sequential)) :
    Within g.edgeKeys (g.connectAll pairs).1.edgeKeys links cuts := by
  induction pairs generalizing g with
  | nil => exact .refl _
  | cons pair pairs ih =>
    obtain ⟨pred, succ⟩ := pair
    have hconnect : Within g.edgeKeys (g.connect ⟨pred, succ, .sequential, none⟩).1.edgeKeys links cuts :=
      g.within_connect _ fun _ _ => hlinks _ List.mem_cons_self
    rw [connectAll_cons]
    split_ifs
    · exact hconnect.trans (ih _ fun pair hpair => hlinks pair (List.mem_cons_of_mem _ hpair))
    · exact hconnect

theorem within_removeNode (g : FlowGraph M) (id : NodeId)
    (hcuts : ∀ key, id ∈ g.nodes → key.1 = id ∨ key.2.1 = id → cuts key) :
    Within g.edgeKeys (g.removeNode id).1.edgeKeys links cuts := by
  unfold removeNode
  split
  · exact .refl _
  · next hnode =>
    refine within_of_edges (fun edge hedge => .inl (List.mem_of_mem_filter hedge)) fun edge hedge => ?_
    by_cases hends : edge.fromNode = id ∨ edge.toNode = id
    · exact .inr (hcuts _ (HashMap.mem_of_lookup hnode) hends)
    · exact .inl (List.mem_filter.mpr ⟨hedge, decide_eq_true (not_or.mp hends)⟩)

theorem mem_eraseP_or_find? {p : Edge → Bool} {edges : List Edge} {first edge : Edge}
    (hfirst : edges.find? p = some first) (hedge : edge ∈ edges) : edge ∈ edges.eraseP p ∨ edge = first := by
  obtain ⟨hp, before, after, rfl, hbefore⟩ := List.find?_eq_some_iff_append.mp hfirst
  rw [List.eraseP_append_right _ fun b hb => by simpa using hbefore b hb, List.eraseP_cons_of_pos hp]
  simp only [List.mem_append, List.mem_cons] at hedge ⊢
  tauto

theorem within_disconnect (g : FlowGraph M) (a b : NodeId) :
    Within g.edgeKeys (g.disconnect a b).1.edgeKeys links ((GraphCall.disconnect a b : GraphCall M).Cuts g) := by
  unfold disconnect
  split
  · exact .refl _
  · next first hfirst =>
    refine within_of_edges (fun edge hedge => .inl (List.mem_of_mem_eraseP hedge)) fun edge hedge => ?_
    refine (mem_eraseP_or_find? hfirst hedge).imp_right ?_
    rintro rfl
    exact ⟨edge, hfirst, rfl⟩

theorem within_insertAfter (g : FlowGraph M) (afterId : NodeId) (newNode : GraphNode M) :
    Within g.edgeKeys (g.insertAfter afterId newNode).1.edgeKeys ((GraphCall.insertAfter afterId newNode).Links g)
      ((GraphCall.insertAfter afterId newNode).Cuts g) := by
  have hadd : Within g.edgeKeys (g.addNode newNode).edgeKeys ((GraphCall.insertAfter afterId newNode).Links g)
      ((GraphCall.insertAfter afterId newNode).Cuts g) := within_of_same (addNode_edges g newNode)
  unfold insertAfter
  split_ifs with hafter
  swap
  · exact .refl _
  split
  · next hnone => exact hadd.trans (within_connect _ _ fun _ _ => ⟨hafter, .inl ⟨hnone, rfl⟩⟩)
  · next old hold =>
    -- the edge is taken out before the halves are put in
    have hcut : Within g.edgeKeys (FlowGraph.edgeKeys { g.addNode newNode with
        edges := (g.addNode newNode).edges.eraseP (·.fromNode = afterId)
        adjacency := HashMap.modify afterId (·.erase old.toNode) (g.addNode newNode).adjacency })
        ((GraphCall.insertAfter afterId newNode).Links g) ((GraphCall.insertAfter afterId newNode).Cuts g) := by
      refine within_of_edges (fun edge hedge => ?_) fun edge hedge => ?_
      · rw [addNode_edges] at hedge
        exact .inl (List.mem_of_mem_eraseP hedge)
      · by_cases hfrom : edge.fromNode = afterId
        · have hmem : edge ∈ g.edgesFrom afterId := List.mem_filter.mpr ⟨hedge, decide_eq_true hfrom⟩
          rw [hold, List.mem_singleton] at hmem
          exact .inr ⟨old, hold, by rw [hmem]⟩
        · left
          rw [addNode_edges]
          exact (List.mem_eraseP_of_neg (by simpa using hfrom)).mpr hedge
    have hin := hcut.trans (within_connect _ ⟨afterId, newNode.id, old.edgeType, old.condition⟩
      fun _ _ => ⟨hafter, .inr ⟨old, hold, .inl rfl⟩⟩)
    dsimp only
    split
    · next g' hg' =>
      rw [hg'] at hin
      exact hin.trans (within_connect _ _ fun _ _ => ⟨hafter, .inr ⟨old, hold, .inr rfl⟩⟩)
    · exact hin
  · exact .refl _

theorem within_removeAndReconnect (g : FlowGraph M) (id : NodeId) :
    Within g.edgeKeys (g.removeAndReconnect id).1.edgeKeys ((GraphCall.removeAndReconnect id : GraphCall M).Links g)
      ((GraphCall.removeAndReconnect id : GraphCall M).Cuts g) := by
  by_cases hcheck : id ∉ g.nodes ∨ 1 < (g.predecessors id).length ∧ 1 < (g.successors id).length
  · obtain ⟨error, hearly⟩ := removeAndReconnect_early hcheck
    rw [hearly]
    exact .refl _
  · rw [not_or, not_not] at hcheck
    obtain ⟨node, hnode⟩ := HashMap.exists_of_mem hcheck.1
    obtain ⟨g₁, hremove, -⟩ := removeNode_nodes hnode
    have hout : Within g.edgeKeys (g.removeNode id).1.edgeKeys ((GraphCall.removeAndReconnect id : GraphCall M).Links g)
        ((GraphCall.removeAndReconnect id : GraphCall M).Cuts g) :=
      g.within_removeNode id fun _ hid hends => ⟨hid, hends⟩
    rw [hremove] at hout
    rw [removeAndReconnect_eq hcheck.2 hcheck.1 hremove]
    exact hout.trans (g₁.within_connectAll _ fun pair hpair => ⟨hcheck.1, pair, hpair, rfl⟩)

theorem within_edit [Node M] (g : FlowGraph M) (call : GraphCall M) :
    Within g.edgeKeys (g.edit call).edgeKeys (call.Links g) (call.Cuts g) := by
  cases call with
  | addNode node => exact within_of_same (addNode_edges g node)
  | removeNode id => exact g.within_removeNode id fun _ hid hends => ⟨hid, hends⟩
  | connect edge => exact g.within_connect edge fun hfrom hto => ⟨hfrom, hto, rfl⟩
  | disconnect fromNode toNode => exact g.within_disconnect fromNode toNode
  | markEntryPoint id =>
    refine within_of_same ?_
    rw [edit, markEntryPoint, apply_ite FlowGraph.edges, ite_self]
  | markExitPoint id =>
    refine within_of_same ?_
    rw [edit, markExitPoint, apply_ite FlowGraph.edges, ite_self]
  | allowFeedbackEdge fromNode toNode => exact .refl _
  | insertAfter afterId newNode => exact g.within_insertAfter afterId newNode
  | removeAndReconnect id => exact g.within_removeAndReconnect id
  | swapNode id newModule =>
    refine within_of_same ?_
    rcases g.swapNode_cases id newModule with ⟨-, hs⟩ | ⟨old, -, ⟨_, hs⟩ | ⟨_, -, hs⟩⟩ <;> rw [edit, hs]

end Edges

variable [Node M] {calls : List (GraphCall M)}

theorem installed_by_lastChange {id : NodeId} (hnew : (calls.foldl edit g).instanceAt id ≠ g.instanceAt id)
    (hthere : (calls.foldl edit g).instanceAt id ≠ none) :
    ∃ met call ptr, LastChange edit (·.instanceAt id) g calls met call ∧ call.Installs met id ptr ∧
      (calls.foldl edit g).instanceAt id = some ptr := by
  obtain ⟨met, call, hlast, hstands⟩ := exists_lastChange (fun g : FlowGraph M => g.instanceAt id) hnew
  rcases leaves_edit met call id with hsame | ⟨ptr, hinstalls, hptr⟩ | ⟨-, hnone⟩
  · exact absurd hsame hlast.changes
  · exact ⟨met, call, ptr, hlast, hinstalls, hstands ▸ hptr⟩
  · exact absurd (hstands ▸ hnone) hthere

theorem dropped_by_lastChange {id : NodeId} (hold : g.instanceAt id ≠ none)
    (hgone : (calls.foldl edit g).instanceAt id = none) :
    ∃ met call, LastChange edit (·.instanceAt id) g calls met call ∧ call.Drops met id := by
  obtain ⟨met, call, hlast, hstands⟩ := exists_lastChange (fun g : FlowGraph M => g.instanceAt id)
    (show (calls.foldl edit g).instanceAt id ≠ g.instanceAt id by rw [hgone]; exact hold.symm)
  rcases leaves_edit met call id with hsame | ⟨ptr, -, hptr⟩ | ⟨hdrops, -⟩
  · exact absurd hsame hlast.changes
  · exact absurd ((hstands.trans hgone).symm.trans hptr) (Option.some_ne_none ptr).symm
  · exact ⟨met, call, hlast, hdrops⟩

theorem linked_by_lastChange {key : NodeId × NodeId × EdgeType} (hold : key ∉ g.edgeKeys)
    (hnew : key ∈ (calls.foldl edit g).edgeKeys) :
    ∃ met call, LastChange edit (key ∈ ·.edgeKeys) g calls met call ∧ call.Links met key := by
  obtain ⟨met, call, hlast, hstands⟩ := exists_lastChange (fun g : FlowGraph M => key ∈ g.edgeKeys)
    (show (key ∈ (calls.foldl edit g).edgeKeys) ≠ (key ∈ g.edgeKeys) from fun h => hold (h ▸ hnew))
  have hthere : key ∈ (met.edit call).edgeKeys := hstands ▸ hnew
  rcases (within_edit met call).linked key hthere with hbefore | hlinks
  · exact absurd (propext (iff_of_true hthere hbefore)) hlast.changes
  · exact ⟨met, call, hlast, hlinks⟩

theorem cut_by_lastChange {key : NodeId × NodeId × EdgeType} (hold : key ∈ g.edgeKeys)
    (hgone : key ∉ (calls.foldl edit g).edgeKeys) :
    ∃ met call, LastChange edit (key ∈ ·.edgeKeys) g calls met call ∧ call.Cuts met key := by
  obtain ⟨met, call, hlast, hstands⟩ := exists_lastChange (fun g : FlowGraph M => key ∈ g.edgeKeys)
    (show (key ∈ (calls.foldl edit g).edgeKeys) ≠ (key ∈ g.edgeKeys) from fun h => hgone (h ▸ hold))
  have hout : key ∉ (met.edit call).edgeKeys := hstands ▸ hgone
  have hbefore : key ∈ met.edgeKeys := by
    by_contra hnot
    exact hlast.changes (propext (iff_of_false hout hnot))
  exact ⟨met, call, hlast, ((within_edit met call).cut key hbefore).resolve_left hout⟩

/-- Whatever a diff reports of a graph and what a run of calls made of it, the last call of the run that changed
it did so on the graph it met: it put the instance there that now stands at the node, or dropped the node, or
linked or cut the edge; and since then that stands. -/
theorem diff_told_by_calls (g : FlowGraph M) (calls : List (GraphCall M)) :
    let after := calls.foldl edit g
    let report := g.diff after
    (∀ id ∈ report.addedNodes ∪ report.changedNodes, ∃ met call ptr,
      LastChange edit (·.instanceAt id) g calls met call ∧ call.Installs met id ptr ∧
        after.instanceAt id = some ptr) ∧
    (∀ id ∈ report.removedNodes, ∃ met call,
      LastChange edit (·.instanceAt id) g calls met call ∧ call.Drops met id) ∧
    (∀ key ∈ report.addedEdges, ∃ met call,
      LastChange edit (key ∈ ·.edgeKeys) g calls met call ∧ call.Links met key) ∧
    ∀ key ∈ report.removedEdges, ∃ met call,
      LastChange edit (key ∈ ·.edgeKeys) g calls met call ∧ call.Cuts met key := by
  intro after report
  refine ⟨fun id hid => ?_, fun id hid => ?_, fun key hkey => ?_, fun key hkey => ?_⟩
  · rcases Finset.mem_union.mp hid with hadded | hchanged
    · obtain ⟨hold, hnew⟩ := mem_addedNodes.mp hadded
      exact installed_by_lastChange (hold ▸ hnew) hnew
    · obtain ⟨⟨-, hnew⟩, hne⟩ := mem_changedNodes.mp hchanged
      exact installed_by_lastChange hne.symm hnew
  · obtain ⟨hold, hgone⟩ := mem_removedNodes.mp hid
    exact dropped_by_lastChange hold hgone
  · obtain ⟨hnew, hold⟩ := Finset.mem_sdiff.mp hkey
    exact linked_by_lastChange hold hnew
  · obtain ⟨hold, hgone⟩ := Finset.mem_sdiff.mp hkey
    exact cut_by_lastChange hold hgone

end FlowGraph
end Nyarix
