import Nyarix.Execution.Routes

/-! Modules that steer a packet along any route of a graph: each shows the edges what a plan says for
the number of hops made so far, which the packet's payload counts. -/

namespace Nyarix

structure Steering where
  plan : List Packet

def Steering.steer (m : Steering) (packet : Packet) : Packet :=
  let shown := m.plan.getD packet.payload.length packet
  { shown with payload := packet.payload ++ [0], metadata := { shown.metadata with ttl := packet.metadata.ttl } }

instance : Node Steering where
  metadata _ := ⟨"steering", .unbounded⟩
  nodeType _ := .transformer
  initializeModule m := (m, .returned (.ok ()))
  process m packet := (m, .returned (.ok (some (m.steer packet))))
  shutdown m := (m, .returned (.ok ()))
  migrate m := (m, .returned (.ok ()))

def steeringNode (m : Steering) (id : NodeId) : GraphNode Steering := .new id ⟨0, 1, m⟩ .default

theorem Condition.evaluate_congr {p q : Packet} (htags : p.tags = q.tags)
    (hpriority : p.metadata.priority = q.metadata.priority) (c : Condition) : c.evaluate p = c.evaluate q := by
  refine @Condition.rec (fun c => c.evaluate p = c.evaluate q)
    (fun cs => Condition.evaluateAll p cs = Condition.evaluateAll q cs ∧
      Condition.evaluateAny p cs = Condition.evaluateAny q cs) ?_ ?_ ?_ ?_ ?_ ?_ ?_ ?_ c
  · intro tag
    simp only [Condition.evaluate, Packet.hasTag, htags]
  · intro mask
    simp only [Condition.evaluate, htags]
  · intro min
    simp only [Condition.evaluate, hpriority]
  · intro inner ih
    simp only [Condition.evaluate, ih]
  · intro conditions ih
    simp only [Condition.evaluate, ih.1]
  · intro conditions ih
    simp only [Condition.evaluate, ih.2]
  · exact ⟨rfl, rfl⟩
  · intro head tail ihHead ihTail
    simp only [Condition.evaluateAll, Condition.evaluateAny, ihHead, ihTail.1, ihTail.2, and_self]

theorem Edge.accepts_congr {p q : Packet} (htags : p.tags = q.tags)
    (hpriority : p.metadata.priority = q.metadata.priority) (edge : Edge) : edge.accepts p = edge.accepts q := by
  unfold Edge.accepts
  cases edge.condition with
  | none => rfl
  | some c => exact c.evaluate_congr htags hpriority

namespace FlowGraph
variable {m : Steering} {g : FlowGraph Steering}

def AllSteer (m : Steering) (g : FlowGraph Steering) : Prop :=
  ∀ id node, g.node id = some node → node.module.module = m ∧ node.module.strongCount = 1 ∧ node.queue.packets = []

theorem AllSteer.process (hg : g.AllSteer m) {id : NodeId} {node : GraphNode Steering} (hnode : g.node id = some node)
    (packet : Packet) : node.process packet = (node, .returned (.ok (some (m.steer packet)))) := by
  obtain ⟨hmodule, howned, -⟩ := hg id node hnode
  obtain ⟨nodeId, nodeType, ⟨ptr, strongCount, module⟩, config, state, queue⟩ := node
  subst hmodule
  subst howned
  rfl

theorem AllSteer.modifyNode (hg : g.AllSteer m) {id : NodeId} {node : GraphNode Steering} (hnode : g.node id = some node) :
    AllSteer m (g.modifyNode id fun _ => node) := by
  intro other node' hnode'
  rw [node_modifyNode] at hnode'
  split_ifs at hnode' with hid
  · obtain ⟨old, -, rfl⟩ := Option.map_eq_some_iff.mp hnode'
    exact hg id node hnode
  · exact hg other node' hnode'

theorem AllSteer.visit (hg : g.AllSteer m) {current : NodeId} (hcurrent : current ∈ g.nodes) (packet : Packet)
    (reading : Reading) : ∃ g' call, g.visit current packet reading =
        (g', [call], g.onward current (.returned (.ok (some (m.steer (packet.recordHop current reading.now)))))) ∧
      call.node = current ∧ AllSteer m g' ∧ g.SameTopology g' := by
  obtain ⟨node, hnode⟩ : ∃ node, g.node current = some node := HashMap.exists_of_mem hcurrent
  obtain ⟨-, howned, hidle⟩ := hg current node hnode
  refine ⟨g.modifyNode current fun _ => node, ⟨current, node.module.ptr, packet.recordHop current reading.now⟩,
    ?_, rfl, hg.modifyNode hnode, sameTopology_modifyNode g current _⟩
  have hlimit : node.checkPayloadLimit packet = .ok () := rfl
  have htimed : node.processTimed (packet.recordHop current reading.now) reading.elapsed =
      (node, .returned (.ok (some (m.steer (packet.recordHop current reading.now))))) := by
    rw [GraphNode.processTimed, hg.process hnode]
    rfl
  unfold FlowGraph.visit
  rw [hnode]
  simp only [hlimit, GraphNode.enqueueAndDequeueSync_empty hidle, htimed, GraphNode.processCalls, howned, if_true]

/-- At each node of the route but the last, the plan's packet goes on to the next one. -/
inductive Guides {M : Type} (g : FlowGraph M) : List Packet → List NodeId → Prop
  | last {n : NodeId} : Guides g [] [n]
  | hop {a : NodeId} {packet : Packet} {edge : Edge} {plan : List Packet} {rest : List NodeId}
    (hexit : a ∉ g.exitPoints) (hfind : (g.edgesFrom a).find? (·.accepts packet) = some edge)
    (h : Guides g plan (edge.toNode :: rest)) : Guides g (packet :: plan) (a :: edge.toNode :: rest)

theorem exists_guides {M : Type} {g : FlowGraph M} {current : NodeId} {rest : List NodeId}
    (h : (current :: rest).IsChain g.Hops) : ∃ plan, g.Guides plan (current :: rest) := by
  induction rest generalizing current with
  | nil => exact ⟨[], .last⟩
  | cons next rest ih =>
    obtain ⟨⟨hexit, packet, edge, hfind, rfl⟩, hrest⟩ := List.isChain_cons_cons.mp h
    obtain ⟨plan, hplan⟩ := ih hrest
    exact ⟨packet :: plan, .hop hexit hfind hplan⟩

theorem onward_deadEnd {M : Type} {g : FlowGraph M} {current : NodeId} (hexit : current ∉ g.exitPoints)
    (hedges : g.edgesFrom current = []) (packet : Packet) :
    g.onward current (.returned (.ok (some packet))) = .stop (.returned (.error (deadEnd current))) := by
  simp only [onward, if_neg hexit, hedges, List.find?_nil]

theorem onward_hop {M : Type} {g : FlowGraph M} {current : NodeId} (hexit : current ∉ g.exitPoints) {packet : Packet}
    {edge : Edge} (hfind : (g.edgesFrom current).find? (·.accepts packet) = some edge) :
    g.onward current (.returned (.ok (some packet))) = .next edge.toNode packet := by
  simp only [onward, if_neg hexit, hfind]

theorem accepts_steer {made plan : List Packet} {shown packet : Packet} (hplan : m.plan = made ++ shown :: plan)
    (hlength : packet.payload.length = made.length) (edge : Edge) : edge.accepts (m.steer packet) = edge.accepts shown := by
  have hshown : m.plan.getD packet.payload.length packet = shown := by
    rw [hplan, hlength, List.getD_eq_getElem?_getD, List.getElem?_append_right (Nat.le_refl _), Nat.sub_self]
    rfl
  have htags : (m.steer packet).tags = shown.tags := by
    change (m.plan.getD packet.payload.length packet).tags = shown.tags
    rw [hshown]
  have hpriority : (m.steer packet).metadata.priority = shown.metadata.priority := by
    change (m.plan.getD packet.payload.length packet).metadata.priority = shown.metadata.priority
    rw [hshown]
  exact edge.accepts_congr htags hpriority

theorem walk_guided {M : Type} {g₀ : FlowGraph M} {made plan : List Packet} {current : NodeId} {rest : List NodeId}
    (hguides : g₀.Guides plan (current :: rest)) (hplan : m.plan = made ++ plan) {packet : Packet}
    (hlength : packet.payload.length = made.length) {g : FlowGraph Steering} (hg : g.AllSteer m)
    (hsame : g₀.SameTopology g) (hpresent : ∀ n ∈ current :: rest, n ∈ g₀.nodes) :
    (walk (List.replicate (rest.length + 1) ⟨0, 0⟩) g current packet).calls.map ProcessCall.node = current :: rest ∧
      ∀ last, (current :: rest).getLast? = some last → last ∉ g₀.exitPoints → g₀.edgesFrom last = [] →
        (walk (List.replicate (rest.length + 1) ⟨0, 0⟩) g current packet).outcome =
          some (.returned (.error (deadEnd last))) := by
  induction rest generalizing current packet made plan g with
  | nil =>
    have hcurrent : current ∈ g.nodes := (hsame.nodes current).mpr (hpresent current List.mem_cons_self)
    obtain ⟨g', call, hvisit, rfl, -, -⟩ := hg.visit hcurrent packet ⟨0, 0⟩
    rw [List.length_nil, Nat.zero_add, List.replicate_one, walk, hvisit]
    constructor
    · generalize g.onward call.node _ = hop
      cases hop with
      | stop outcome => rfl
      | next target packet => rfl
    · -- the plan has run out: the walk ends where the route does
      intro last hlast hexit hedges
      obtain rfl : call.node = last := by simpa using hlast
      rw [← hsame.exitPoints] at hexit
      rw [← hsame.edgesFrom] at hedges
      rw [onward_deadEnd hexit hedges]
  | cons next rest ih =>
    have hcurrent : current ∈ g.nodes := (hsame.nodes current).mpr (hpresent current List.mem_cons_self)
    obtain ⟨g', call, hvisit, rfl, hg', hsame'⟩ := hg.visit hcurrent packet ⟨0, 0⟩
    cases hguides with
    | @hop _ shown edge plan _ hexit hfind hrest =>
      have hlength' : (packet.recordHop call.node 0).payload.length = made.length := hlength
      have hsteered : (m.steer (packet.recordHop call.node 0)).payload.length = (made ++ [shown]).length := by
        change (packet.payload ++ [0]).length = (made ++ [shown]).length
        rw [List.length_append, List.length_append, hlength]
        rfl
      rw [← hsame.exitPoints] at hexit
      rw [← hsame.edgesFrom] at hfind
      simp only [← accepts_steer hplan hlength'] at hfind
      obtain ⟨hcalls, hlast⟩ := ih hrest (by rw [hplan, List.append_assoc, List.singleton_append]) hsteered hg'
        (hsame.trans hsame') fun n hn => hpresent n (List.mem_cons_of_mem _ hn)
      rw [List.length_cons, List.replicate_succ, walk, hvisit, onward_hop hexit hfind]
      refine ⟨congrArg (call.node :: ·) hcalls, fun last hend => hlast last ?_⟩
      rw [← hend, List.getLast?_cons_cons]

end FlowGraph
end Nyarix
