import Nyarix.Graph.Splicing
import Nyarix.Lib.Fold

/-! When sources stay entry points and sinks stay exit points. Every edit registers the node it
stores, except a swap, which stores the new module's node under the marks of the old one. -/

namespace Nyarix
namespace FlowGraph
variable {M : Type}

def Marked (g : FlowGraph M) (id : NodeId) (nodeType : NodeType) : Prop :=
  (nodeType = .source → id ∈ g.entryPoints) ∧ (nodeType = .sink → id ∈ g.exitPoints)

def Registered (g : FlowGraph M) : Prop := ∀ id node, g.node id = some node → g.Marked id node.nodeType

/-- A swap that goes through installs a module whose marks its node already has. -/
def KeepsRole [Node M] (g : FlowGraph M) : GraphCall M → Prop
  | .swapNode id newModule => ∀ old r, g.node id = some old → old.migrate.2 = .returned r →
      g.Marked id (Node.nodeType newModule.module)
  | _ => True

theorem registered_new : (new : FlowGraph M).Registered := by
  intro id node h
  cases h

theorem Registered.mono {g g' : FlowGraph M} (h : g.Registered)
    (hnodes : ∀ id node, g'.node id = some node → g.node id = some node)
    (hentry : ∀ id ∈ g.entryPoints, id ∈ g'.nodes → id ∈ g'.entryPoints)
    (hexit : ∀ id ∈ g.exitPoints, id ∈ g'.nodes → id ∈ g'.exitPoints) : g'.Registered := by
  intro id node hnode
  have hmem : id ∈ g'.nodes := HashMap.mem_of_lookup hnode
  have hmarked := h id node (hnodes id node hnode)
  exact ⟨fun hsource => hentry id (hmarked.1 hsource) hmem, fun hsink => hexit id (hmarked.2 hsink) hmem⟩

theorem Registered.markEntryPoint {g : FlowGraph M} (h : g.Registered) (id : NodeId) :
    (g.markEntryPoint id).Registered := by
  unfold FlowGraph.markEntryPoint
  split_ifs
  · exact h
  · exact h.mono (fun _ _ hnode => hnode) (fun _ hmem _ => List.mem_append_left _ hmem) fun _ hmem _ => hmem

theorem Registered.markExitPoint {g : FlowGraph M} (h : g.Registered) (id : NodeId) :
    (g.markExitPoint id).Registered := by
  unfold FlowGraph.markExitPoint
  split_ifs
  · exact h
  · exact h.mono (fun _ _ hnode => hnode) (fun _ hmem _ => hmem) fun _ hmem _ => List.mem_append_left _ hmem

theorem Registered.connect {g : FlowGraph M} (h : g.Registered) (edge : Edge) : (g.connect edge).1.Registered := by
  unfold FlowGraph.connect
  split_ifs <;> exact h

theorem Registered.disconnect {g : FlowGraph M} (h : g.Registered) (a b : NodeId) :
    (g.disconnect a b).1.Registered := by
  unfold FlowGraph.disconnect
  split <;> exact h

theorem Registered.removeNode {g : FlowGraph M} (h : g.Registered) (id : NodeId) : (g.removeNode id).1.Registered := by
  unfold FlowGraph.removeNode
  split
  · exact h
  -- the marks of the other nodes survive the filters
  have hkeep : ∀ marks : List NodeId, ∀ k ∈ marks, k ∈ g.nodes.erase id → k ∈ marks.filter (· ≠ id) := by
    intro marks k hk hmem
    exact List.mem_filter.mpr ⟨hk, decide_eq_true (AList.mem_erase.mp hmem).1⟩
  refine h.mono (fun k node hnode => ?_) (hkeep _) (hkeep _)
  have hne : k ≠ id := (AList.mem_erase.mp (HashMap.mem_of_lookup hnode)).1
  change (g.nodes.erase id).lookup k = some node at hnode
  rwa [AList.lookup_erase_ne hne] at hnode

theorem Registered.connectAll {g : FlowGraph M} (h : g.Registered) (pairs : List (NodeId × NodeId)) :
    (g.connectAll pairs).1.Registered := by
  induction pairs generalizing g with
  | nil => exact h
  | cons pair pairs ih =>
    have hin := h.connect ⟨pair.1, pair.2, .sequential, none⟩
    rw [connectAll_cons]
    split_ifs
    · exact ih hin
    · exact hin

theorem Registered.removeAndReconnect {g : FlowGraph M} (h : g.Registered) (id : NodeId) :
    (g.removeAndReconnect id).1.Registered := by
  by_cases hcheck : id ∉ g.nodes ∨ 1 < (g.predecessors id).length ∧ 1 < (g.successors id).length
  · obtain ⟨error, hearly⟩ := removeAndReconnect_early hcheck
    rwa [hearly]
  · rw [not_or, not_not] at hcheck
    obtain ⟨node, hnode⟩ := HashMap.exists_of_mem hcheck.1
    obtain ⟨g', hremove, -⟩ := removeNode_nodes hnode
    have hout := h.removeNode id
    rw [hremove] at hout
    rw [removeAndReconnect_eq hcheck.2 hcheck.1 hremove]
    exact hout.connectAll _

theorem Registered.addNode {g : FlowGraph M} (h : g.Registered) (node : GraphNode M) :
    (g.addNode node).Registered := by
  intro id stored hstored
  rw [node_addNode] at hstored
  unfold Marked
  rw [mem_addNode_entryPoints, mem_addNode_exitPoints]
  split_ifs at hstored with hid
  · cases hstored
    exact ⟨fun hsource => .inr ⟨hid, hsource⟩, fun hsink => .inr ⟨hid, hsink⟩⟩
  · exact (h id stored hstored).imp (fun hentry hsource => .inl (hentry hsource)) fun hexit hsink => .inl (hexit hsink)

theorem Registered.insertAfter {g : FlowGraph M} (h : g.Registered) (afterId : NodeId) (newNode : GraphNode M) :
    (g.insertAfter afterId newNode).1.Registered := by
  unfold FlowGraph.insertAfter
  split_ifs
  swap
  · exact h
  split
  · exact (h.addNode newNode).connect _
  · rename_i old hold
    -- cutting the old edge touches neither nodes nor marks
    have hcut : Registered { g.addNode newNode with
        edges := (g.addNode newNode).edges.eraseP (·.fromNode = afterId)
        adjacency := HashMap.modify afterId (·.erase old.toNode) (g.addNode newNode).adjacency } := h.addNode newNode
    have hin := hcut.connect ⟨afterId, newNode.id, old.edgeType, old.condition⟩
    dsimp only
    split
    · rename_i g' hg'
      rw [hg'] at hin
      exact hin.connect _
    · exact hin
  · exact h

theorem registered_store_iff {g : FlowGraph M} (h : g.Registered) (id : NodeId) (node : GraphNode M) :
    Registered { g with nodes := g.nodes.insert id node } ↔ g.Marked id node.nodeType := by
  constructor
  · exact fun hafter => hafter id node (AList.lookup_insert _)
  · intro hmarked k stored hstored
    change (g.nodes.insert id node).lookup k = some stored at hstored
    rcases eq_or_ne k id with rfl | hne
    · rw [AList.lookup_insert] at hstored
      cases hstored
      exact hmarked
    · rw [AList.lookup_insert_ne hne] at hstored
      exact h k stored hstored

theorem registered_swapNode_iff [Node M] {g : FlowGraph M} (h : g.Registered) (id : NodeId) (newModule : ArcNode M) :
    (g.swapNode id newModule).1.Registered ↔ g.KeepsRole (.swapNode id newModule) := by
  cases hold : g.node id with
  | none =>
    unfold FlowGraph.swapNode
    rw [show g.nodes.lookup id = none from hold]
    refine iff_of_true h fun old r hsome => ?_
    rw [hold] at hsome
    cases hsome
  | some old =>
    have hcall : g.KeepsRole (.swapNode id newModule) ↔
        ∀ r, old.migrate.2 = .returned r → g.Marked id (Node.nodeType newModule.module) := by
      simp only [KeepsRole, hold, Option.some.injEq]
      exact ⟨fun hkeep r => hkeep old r rfl, fun hkeep old' r heq => heq ▸ hkeep r⟩
    rw [hcall]
    unfold FlowGraph.swapNode
    rw [show g.nodes.lookup id = some old from hold]
    dsimp only
    rcases hm : old.migrate with ⟨replaced, r | reason⟩
    · refine (registered_store_iff h id _).trans ⟨fun hmarked _ _ => hmarked, fun hkeep => hkeep r rfl⟩
    · -- the node that stays after a panic is of the old one's type
      have htype : replaced.nodeType = old.nodeType := congrArg (fun r => r.1.nodeType) hm.symm
      refine iff_of_true ((registered_store_iff h id replaced).mpr ?_) fun r hreturned => by cases hreturned
      rw [htype]
      exact h id old hold

theorem registered_edit_iff [Node M] {g : FlowGraph M} (h : g.Registered) (call : GraphCall M) :
    (g.edit call).Registered ↔ g.KeepsRole call := by
  cases call with
  | addNode node => exact iff_of_true (h.addNode node) trivial
  | removeNode id => exact iff_of_true (h.removeNode id) trivial
  | connect edge => exact iff_of_true (h.connect edge) trivial
  | disconnect a b => exact iff_of_true (h.disconnect a b) trivial
  | markEntryPoint id => exact iff_of_true (h.markEntryPoint id) trivial
  | markExitPoint id => exact iff_of_true (h.markExitPoint id) trivial
  | allowFeedbackEdge a b => exact iff_of_true h trivial
  | insertAfter afterId newNode => exact iff_of_true (h.insertAfter afterId newNode) trivial
  | removeAndReconnect id => exact iff_of_true (h.removeAndReconnect id) trivial
  | swapNode id newModule => exact registered_swapNode_iff h id newModule

/-- Sources and sinks are registered in every graph of a run exactly if no swap of the run gives
a node a role whose mark it lacks. -/
theorem registered_throughout_iff [Node M] (calls : List (GraphCall M)) :
    Fold.Throughout edit Registered new calls ↔ Fold.Along edit KeepsRole (new : FlowGraph M) calls :=
  Fold.throughout_iff_along (I := fun _ => True) (P := Registered) (fun _ _ _ => trivial)
    (fun _ call _ h => registered_edit_iff h call) trivial registered_new calls

theorem swapped_in_source_unregistered :
    ¬ Registered ([.addNode (.new ⟨0⟩ ⟨0, 1, ⟨"stub", .transformer, .passes⟩⟩ .default),
      .swapNode ⟨0⟩ ⟨1, 1, ⟨"stub", .source, .passes⟩⟩].foldl edit (new : FlowGraph StubNode)) := by
  intro h
  have hmarked := h ⟨0⟩ _ rfl
  exact List.not_mem_nil (hmarked.1 rfl)

end FlowGraph
end Nyarix
