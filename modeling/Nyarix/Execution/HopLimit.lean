import Nyarix.Execution.Steering

/-! When a packet's `ttl` bounds its trip through the graph. The engine neither reads nor lowers it, so
only the graph can keep a trip short. -/

namespace Nyarix

/-- No call of a module hands on a packet with a higher `ttl` than it was given. -/
def NeverRaisesTtl (M : Type) [Node M] : Prop := ∀ (m : M) (packet packet' : Packet),
  (Node.process m packet).2 = .returned (.ok (some packet')) → packet'.metadata.ttl ≤ packet.metadata.ttl

theorem steering_neverRaisesTtl : NeverRaisesTtl Steering := by
  intro m packet packet' h
  obtain rfl : m.steer packet = packet' := by simpa [Node.process] using h
  exact BitVec.le_refl _

theorem stub_neverRaisesTtl : NeverRaisesTtl StubNode := by
  intro m packet packet' h
  cases hbehaviour : m.behaviour with
  | passes =>
    obtain rfl : packet = packet' := by simpa [Node.process, StubNode.process, hbehaviour] using h
    exact BitVec.le_refl _
  | absorbs => simp [Node.process, StubNode.process, hbehaviour] at h
  | fails => simp [Node.process, StubNode.process, hbehaviour] at h

namespace FlowGraph
variable {M : Type}

/-- On a graph of this shape a packet with that `ttl` is given to at most `ttl` modules, whatever the
modules do that never raise it. -/
def TtlBounds (g : FlowGraph M) (entry : NodeId) (ttl : BitVec 8) : Prop :=
  ∀ (M' : Type) [Node M'] (g' : FlowGraph M'), g'.Reachable → g.SameTopology g' → NeverRaisesTtl M' →
    ∀ (packet : Packet) (readings : List Reading), packet.metadata.ttl = ttl →
      (g'.executeSequential entry packet readings).calls.length ≤ ttl.toNat

theorem ttlBounds_of_routes [Node M] {g : FlowGraph M} {entry : NodeId} {ttl : BitVec 8}
    (h : ∀ route, g.Route entry route → route.length ≤ ttl.toNat) : g.TtlBounds entry ttl := by
  intro M' _ g' hg' hsame _ packet readings _
  unfold executeSequential
  split_ifs with hentry
  · by_cases hpresent : entry ∈ g'.nodes
    · obtain ⟨rest, hchain, hnodes, hcalls, -⟩ :=
        walk_route (fun edge hedge => (hg'.wellFormed.endpoints edge hedge).2) readings hpresent packet
      have hroute : g.Route entry (entry :: rest) := by
        refine ⟨hsame.entryPoints ▸ hentry, rfl, hsame.hops ▸ hchain, fun n hn => ?_⟩
        exact (hsame.nodes n).mp (hnodes n hn)
      have hle := hcalls.length_le
      rw [List.length_map] at hle
      exact hle.trans (h _ hroute)
    · cases readings with
      | nil => exact Nat.zero_le _
      | cons reading readings =>
        have habsent := executeSequential_of_absent hpresent packet reading readings
        rw [executeSequential, if_pos hentry] at habsent
        rw [habsent]
        exact Nat.zero_le _
  · exact Nat.zero_le _

theorem exists_guided_walk [Node M] {g : FlowGraph M} (hg : g.WellFormed) {entry : NodeId} {route : List NodeId}
    (hroute : g.Route entry route) (ttl : BitVec 8) : ∃ g' : FlowGraph Steering, g'.Reachable ∧ g.SameTopology g' ∧
      g'.QueuesEmpty ∧ ∃ packet readings, packet.metadata.ttl = ttl ∧
        (g'.executeSequential entry packet readings).calls.map ProcessCall.node = route ∧
        ∀ last, route.getLast? = some last → last ∉ g.exitPoints → g.edgesFrom last = [] →
          (g'.executeSequential entry packet readings).outcome = some (.returned (.error (deadEnd last))) := by
  obtain ⟨rest, rfl⟩ : ∃ rest, route = entry :: rest := by
    obtain ⟨rest, hrest⟩ := List.head?_eq_some_iff.mp hroute.head
    exact ⟨rest, hrest⟩
  obtain ⟨plan, hguides⟩ := exists_guides hroute.chain
  have hid : ∀ id, (steeringNode ⟨plan⟩ id).id = id := fun _ => rfl
  obtain ⟨g', hg', hsame, hnodes⟩ := exists_sameTopology hg hid fun _ => rfl
  have hsteer : g'.AllSteer ⟨plan⟩ := by
    intro id node hnode
    obtain rfl := hnodes id node hnode
    exact ⟨rfl, rfl, rfl⟩
  have hentry : entry ∈ g'.entryPoints := hsame.entryPoints ▸ hroute.starts
  obtain ⟨packet, hpayload, httl⟩ : ∃ packet : Packet, packet.payload.length = ([] : List Packet).length ∧
      packet.metadata.ttl = ttl := ⟨.new ⟨0⟩ [] { Metadata.new ⟨0⟩ ⟨0⟩ ⟨0⟩ 0 with ttl := ttl }, rfl, rfl⟩
  have hwalk := walk_guided hguides rfl hpayload hsteer hsame hroute.present
  refine ⟨g', hg', hsame, fun id node hnode => (hsteer id node hnode).2.2, packet,
    List.replicate (rest.length + 1) ⟨0, 0⟩, httl, ?_⟩
  unfold executeSequential
  rw [if_pos hentry]
  exact hwalk

/-- The `ttl` of a packet bounds its trip exactly when no route from its entry point is longer. -/
theorem ttl_bounds_iff [Node M] {g : FlowGraph M} (hg : g.Reachable) (entry : NodeId) (ttl : BitVec 8) :
    g.TtlBounds entry ttl ↔ ∀ route, g.Route entry route → route.length ≤ ttl.toNat := by
  refine ⟨fun h route hroute => ?_, ttlBounds_of_routes⟩
  obtain ⟨g', hg', hsame, -, packet, readings, httl, hcalls, -⟩ := exists_guided_walk hg.wellFormed hroute ttl
  have hle := h Steering g' hg' hsame steering_neverRaisesTtl packet readings httl
  rw [← List.length_map, hcalls] at hle
  exact hle

theorem ttl_bounds_iff_relay : relay.TtlBounds ⟨0⟩ 2 ↔ ∀ route, relay.Route ⟨0⟩ route → route.length ≤ 2 :=
  ttl_bounds_iff (stubGraph_reachable _ _) ⟨0⟩ 2

def feedback : FlowGraph StubNode :=
  (stubGraph [(.source, .passes), (.transformer, .passes), (.sink, .passes)]
    [(0, 1, .sequential), (1, 0, .sequential), (1, 2, .sequential)]).allowFeedbackEdge ⟨1⟩ ⟨0⟩

theorem feedback_reachable : feedback.Reachable := .edit (.allowFeedbackEdge ⟨1⟩ ⟨0⟩) (stubGraph_reachable _ _)

theorem feedback_outlives_ttl : feedback.Reachable ∧
    feedback.validate feedback.nodeIds 3 = some (.returned (.ok ())) ∧ NeverRaisesTtl StubNode ∧
    ∃ packet : Packet, packet.metadata.ttl = 1 ∧
      ¬ (feedback.executeSequential ⟨0⟩ packet (List.replicate 5 ⟨0, 0⟩)).calls.length ≤ (1 : BitVec 8).toNat := by
  refine ⟨feedback_reachable, rfl, stub_neverRaisesTtl,
    .new ⟨0⟩ [] { Metadata.new ⟨0⟩ ⟨0⟩ ⟨0⟩ 0 with ttl := 1 }, rfl, ?_⟩
  decide

end FlowGraph
end Nyarix
