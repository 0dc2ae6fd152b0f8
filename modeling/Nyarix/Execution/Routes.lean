import Nyarix.Execution.Transparency
import Nyarix.Graph.Topology
import Nyarix.Graph.Validate

/-! The route of a walk through the graph, and that it ends on a graph that passed validation. -/

namespace Nyarix
namespace FlowGraph

section Hops
variable {M M' : Type}

def Hops (g : FlowGraph M) (a b : NodeId) : Prop :=
  a ∉ g.exitPoints ∧ ∃ packet edge, (g.edgesFrom a).find? (·.accepts packet) = some edge ∧ edge.toNode = b

/-- The nodes that a packet can come by on its way from an entry point, one after another. -/
structure Route (g : FlowGraph M) (entry : NodeId) (route : List NodeId) : Prop where
  starts : entry ∈ g.entryPoints
  head : route.head? = some entry
  chain : route.IsChain g.Hops
  present : ∀ n ∈ route, n ∈ g.nodes

theorem SameTopology.hops {g : FlowGraph M} {g' : FlowGraph M'} (h : g.SameTopology g') : g'.Hops = g.Hops := by
  funext a b
  rw [Hops, Hops, h.exitPoints, h.edgesFrom]

theorem Hops.edge {g : FlowGraph M} {a b : NodeId} (h : g.Hops a b) :
    ∃ edge ∈ g.edges, edge.fromNode = a ∧ edge.toNode = b := by
  obtain ⟨-, packet, edge, hfind, hto⟩ := h
  obtain ⟨hmem, hfrom⟩ := List.mem_filter.mp (List.mem_of_find?_eq_some hfind)
  exact ⟨edge, hmem, of_decide_eq_true hfrom, hto⟩

end Hops

variable {M : Type} [Node M] {g : FlowGraph M}

omit [Node M] in
theorem onward_next {current next : NodeId} {outcome : Outcome} {packet : Packet}
    (h : g.onward current outcome = .next next packet) : g.Hops current next := by
  unfold onward at h
  split at h
  · next p =>
    split_ifs at h with hexit
    split at h
    · cases h
    · next edge hfind =>
      cases h
      exact ⟨hexit, packet, edge, hfind, rfl⟩
  · cases h

theorem visit_route (g : FlowGraph M) (current : NodeId) (packet : Packet) (reading : Reading) :
    g.SameTopology (g.visit current packet reading).1 ∧
      ((g.visit current packet reading).2.1.map ProcessCall.node).Sublist [current] ∧
      ∀ next packet', (g.visit current packet reading).2.2 = .next next packet' → g.Hops current next := by
  unfold visit
  split
  · exact ⟨.refl g, List.nil_sublist _, fun next packet' h => by cases h⟩
  · next node hnode =>
    split
    · exact ⟨.refl g, List.nil_sublist _, fun next packet' h => by cases h⟩
    · split
      · exact ⟨sameTopology_modifyNode g current _, List.nil_sublist _, fun next packet' h => by cases h⟩
      · exact ⟨sameTopology_modifyNode g current _, List.nil_sublist _, fun next packet' h => by cases h⟩
      · next node' queued _ =>
        refine ⟨sameTopology_modifyNode g current _, ?_, fun next packet' h => onward_next h⟩
        dsimp only
        unfold GraphNode.processCalls
        split_ifs
        · exact List.Sublist.refl _
        · exact List.nil_sublist _

theorem walk_route (hends : ∀ edge ∈ g.edges, edge.toNode ∈ g.nodes) (readings : List Reading) {current : NodeId}
    (hcurrent : current ∈ g.nodes) (packet : Packet) :
    ∃ rest, (current :: rest).IsChain g.Hops ∧ (∀ n ∈ current :: rest, n ∈ g.nodes) ∧
      ((walk readings g current packet).calls.map ProcessCall.node).Sublist (current :: rest) ∧
      ((walk readings g current packet).outcome = none → readings.length ≤ rest.length) := by
  induction readings generalizing g current packet with
  | nil =>
    refine ⟨[], List.isChain_singleton current, ?_, List.nil_sublist _, fun _ => Nat.le_refl 0⟩
    rintro n hn
    exact List.mem_singleton.mp hn ▸ hcurrent
  | cons reading readings ih =>
    obtain ⟨htopology, hcalls, hnext⟩ := g.visit_route current packet reading
    rw [walk]
    rcases hvisit : g.visit current packet reading with ⟨g', calls, outcome | ⟨next, packet'⟩⟩
    · rw [hvisit] at hcalls
      refine ⟨[], List.isChain_singleton current, ?_, hcalls, fun h => by cases h⟩
      rintro n hn
      exact List.mem_singleton.mp hn ▸ hcurrent
    · rw [hvisit] at htopology hcalls hnext
      have hhop : g.Hops current next := hnext next packet' rfl
      obtain ⟨edge, hedge, -, rfl⟩ := hhop.edge
      have hends' : ∀ edge ∈ g'.edges, edge.toNode ∈ g'.nodes := by
        intro edge hedge
        rw [htopology.edges] at hedge
        exact (htopology.nodes _).mpr (hends edge hedge)
      obtain ⟨rest, hchain, hpresent, hsub, hlength⟩ := ih hends' ((htopology.nodes _).mpr (hends edge hedge)) packet'
      refine ⟨edge.toNode :: rest, ?_, ?_, ?_, fun h => Nat.succ_le_succ (hlength h)⟩
      · rw [htopology.hops] at hchain
        exact List.isChain_cons_cons.mpr ⟨hhop, hchain⟩
      · refine List.forall_mem_cons.mpr ⟨hcurrent, fun n hn => (htopology.nodes n).mp (hpresent n hn)⟩
      · rw [List.map_append]
        exact hcalls.append hsub

theorem executeSequential_of_absent {entry : NodeId} (h : entry ∉ g.nodes) (packet : Packet) (reading : Reading)
    (readings : List Reading) : (g.executeSequential entry packet (reading :: readings)) =
      ⟨g, [], some (.returned (.error (missingNode entry)))⟩ := by
  have hnode : g.node entry = none := AList.lookup_eq_none.mpr h
  unfold executeSequential
  split_ifs
  · rw [walk, visit, hnode]
  · rfl

theorem nodup_of_acyclic {succ : NodeId → List NodeId} (h : Dfs.Acyclic succ) {route : List NodeId}
    (hchain : route.IsChain fun a b => b ∈ succ a) : route.Nodup := by
  have htrans : route.IsChain (Relation.TransGen fun a b => b ∈ succ a) := hchain.imp fun _ _ hab => .single hab
  refine htrans.pairwise.imp ?_
  rintro a b hab rfl
  exact h a hab

/-- On a graph without allowed feedback that passed validation, sequential execution returns after at
most one round for each node, and calls each module at most once. -/
theorem execute_sequential_terminates (hg : g.Reachable) (hfeedback : g.allowedFeedbackEdges = ∅)
    {order : List NodeId} (horder : order.Perm g.nodeIds) {fuel : Nat}
    (hvalid : g.validate order fuel = some (.returned (.ok ()))) (entry : NodeId) (packet : Packet)
    (readings : List Reading) :
    ((g.executeSequential entry packet readings).calls.map ProcessCall.node).Nodup ∧
      (g.executeSequential entry packet readings).calls.length ≤ g.nodeIds.length ∧
      (g.nodeIds.length ≤ readings.length → (g.executeSequential entry packet readings).outcome.isSome) := by
  have hwf := hg.wellFormed
  obtain ⟨hcycle, hentries⟩ := validate_ok hvalid
  have hacyclic := acyclic_of_detectCycle hwf horder hcycle
  unfold executeSequential
  split_ifs with hentry
  · obtain ⟨hpresent, -⟩ := hentries entry hentry
    obtain ⟨rest, hchain, hnodes, hcalls, hlength⟩ :=
      walk_route (fun edge hedge => (hwf.endpoints edge hedge).2) readings hpresent packet
    have hchecked : (entry :: rest).IsChain fun a b => b ∈ g.checkedNeighbors a := by
      refine hchain.imp fun a b hab => (mem_checkedNeighbors hwf).mpr ⟨hab.edge, ?_⟩
      rw [hfeedback]
      exact Finset.notMem_empty _
    -- without allowed feedback every edge is checked, so a route repeats no node
    have hnodup := nodup_of_acyclic hacyclic hchecked
    have hcount : (entry :: rest).length ≤ g.nodeIds.length :=
      (List.subperm_of_subset hnodup fun n hn => AList.mem_keys.mp (hnodes n hn)).length_le
    refine ⟨hnodup.sublist hcalls, ?_, fun henough => ?_⟩
    · have hle := hcalls.length_le
      rw [List.length_map] at hle
      exact hle.trans hcount
    · by_contra hnone
      have hle := hlength (Option.not_isSome_iff_eq_none.mp hnone)
      rw [List.length_cons] at hcount
      omega
  · exact ⟨List.nodup_nil, Nat.zero_le _, fun _ => rfl⟩

theorem execute_sequential_terminates_relay :
    ((relay.executeSequential ⟨0⟩ (stubPacket 7) [⟨0, 1⟩, ⟨2, 1⟩]).calls.map ProcessCall.node).Nodup ∧
      (relay.executeSequential ⟨0⟩ (stubPacket 7) [⟨0, 1⟩, ⟨2, 1⟩]).calls.length ≤ relay.nodeIds.length ∧
      (relay.nodeIds.length ≤ 2 → (relay.executeSequential ⟨0⟩ (stubPacket 7) [⟨0, 1⟩, ⟨2, 1⟩]).outcome.isSome) := by
  have hvalid : relay.validate relay.nodeIds 2 = some (.returned (.ok ())) := by rfl
  exact execute_sequential_terminates (stubGraph_reachable _ _) rfl (.refl _) hvalid _ _ _

end FlowGraph
end Nyarix
