import Nyarix.Execution.Parallel
import Nyarix.Execution.Sequential

/-! What the modules of a graph are called with. The payload limit is checked on the packet in hand,
and the module is called with the packet that its queue yields. -/

namespace Nyarix

def Unwind.unwound {α : Type} : Unwind α → Bool
  | .returned _ => false
  | .panicked _ => true

/-- A module's metadata does not change when it is called. -/
structure StaticMetadata (M : Type) [Node M] : Prop where
  process : ∀ (m : M) (packet : Packet), Node.metadata (Node.process m packet).1 = Node.metadata m
  migrate : ∀ m : M, Node.metadata (Node.migrate m).1 = Node.metadata m

def Packet.Fits (limit : Option Nat) (packet : Packet) : Prop := ∀ max, limit = some max → packet.len ≤ max

section Bounded
variable {M : Type} [Node M]

def GraphNode.payloadLimit (node : GraphNode M) : Option Nat := node.metadata.resourceLimits.maxPayloadBytes

structure GraphNode.Bounded (limit : Option Nat) (node : GraphNode M) : Prop where
  declares : node.payloadLimit = limit
  queued : ∀ packet ∈ node.queue.packets, packet.Fits limit

variable {node : GraphNode M} {packet : Packet} {limit : Option Nat}

theorem GraphNode.bounded_of_empty (h : node.queue.packets = []) : node.Bounded node.payloadLimit where
  declares := rfl
  queued packet hmem := by
    rw [h] at hmem
    cases hmem

theorem GraphNode.fits_of_checkPayloadLimit (h : node.checkPayloadLimit packet = .ok ()) :
    packet.Fits node.payloadLimit := by
  intro max hmax
  rw [payloadLimit] at hmax
  rw [checkPayloadLimit, hmax] at h
  dsimp only at h
  split_ifs at h with hlt
  exact Nat.not_lt.mp hlt

theorem GraphNode.call_metadata {α : Type} {f : M → M × Unwind (Except ModuleError α)}
    (hf : ∀ m, Node.metadata (f m).1 = Node.metadata m) : (node.call f).1.metadata = node.metadata := by
  unfold call metadata ArcNode.call
  split_ifs
  · exact hf _
  · rfl

theorem GraphNode.Bounded.processTimed (hstatic : StaticMetadata M) (h : node.Bounded limit) (packet : Packet)
    (elapsed : Duration) : (node.processTimed packet elapsed).1.Bounded limit := by
  rw [processTimed_fst]
  have hmetadata : (node.process packet).1.metadata = node.metadata :=
    call_metadata fun m => hstatic.process m packet
  refine ⟨?_, h.queued⟩
  rw [payloadLimit, hmetadata]
  exact h.declares

theorem GraphNode.Bounded.migrate (hstatic : StaticMetadata M) (h : node.Bounded limit) :
    node.migrate.1.Bounded limit := by
  have hmetadata : node.migrate.1.metadata = node.metadata := call_metadata hstatic.migrate
  refine ⟨?_, h.queued⟩
  rw [payloadLimit, hmetadata]
  exact h.declares

theorem GraphNode.Bounded.trySend (h : node.Bounded limit) (hfits : packet.Fits limit) {queue : NodeQueue}
    (hsend : node.queue.trySend packet = some queue) : ({ node with queue := queue } : GraphNode M).Bounded limit := by
  refine ⟨h.declares, fun p hp => ?_⟩
  have hmem := (NodeQueue.trySend_eq_some hsend).1.subset hp
  rcases List.mem_cons.mp hmem with rfl | hold
  · exact hfits
  · exact h.queued p hold

theorem GraphNode.Bounded.tryRecv (h : node.Bounded limit) {queue : NodeQueue}
    (hrecv : node.queue.tryRecvPrioritized = some (packet, queue)) :
    packet.Fits limit ∧ ({ node with queue := queue } : GraphNode M).Bounded limit := by
  have hpackets := NodeQueue.tryRecvPrioritized_eq_some hrecv
  have hqueued := h.queued
  rw [hpackets] at hqueued
  obtain ⟨hfirst, hrest⟩ := List.forall_mem_cons.mp hqueued
  exact ⟨hfirst, h.declares, hrest⟩

theorem GraphNode.Bounded.enqueueAndDequeueSync (h : node.Bounded limit) (hfits : packet.Fits limit)
    {node' : GraphNode M} {result : Unwind (Except ExecutionError Packet)}
    (hqueue : node.enqueueAndDequeueSync packet = (node', result)) :
    node'.Bounded limit ∧ ∀ queued, result = .returned (.ok queued) → queued.Fits limit := by
  unfold GraphNode.enqueueAndDequeueSync at hqueue
  split at hqueue
  · obtain ⟨rfl, rfl⟩ := Prod.mk.inj hqueue
    exact ⟨h, fun queued hq => by cases hq⟩
  · next queue hsend =>
    have hsent := h.trySend hfits hsend
    split at hqueue
    · obtain ⟨rfl, rfl⟩ := Prod.mk.inj hqueue
      exact ⟨hsent, fun queued hq => by cases hq⟩
    · next taken queue' hrecv =>
      obtain ⟨rfl, rfl⟩ := Prod.mk.inj hqueue
      obtain ⟨htaken, hleft⟩ := hsent.tryRecv hrecv
      refine ⟨hleft, fun queued hq => ?_⟩
      obtain rfl : taken = queued := by simpa using hq
      exact htaken

theorem GraphNode.processTimed_unwound (node : GraphNode M) (packet : Packet) (elapsed : Duration) :
    (node.processTimed packet elapsed).2.unwound = (node.process packet).2.unwound := by
  unfold processTimed
  rcases node.process packet with ⟨node', outcome | reason⟩
  · dsimp only
    cases node'.checkProcessingTime elapsed with
    | error => rfl
    | ok => cases outcome <;> rfl
  · rfl

end Bounded

namespace FlowGraph
variable {M : Type} [Node M]

def AllBounded (g : FlowGraph M) (limit : NodeId → Option Nat) : Prop :=
  ∀ n node, g.node n = some node → node.Bounded (limit n)

def serves (g : FlowGraph M) (current : NodeId) (packet : Packet) (reading : Reading) : List (GraphNode M × Packet) :=
  match g.node current with
  | none => []
  | some node =>
    match node.checkPayloadLimit packet with
    | .error _ => []
    | .ok () =>
      match node.enqueueAndDequeueSync (packet.recordHop current reading.now) with
      | (node, .returned (.ok queued)) => [(node, queued)]
      | _ => []

def walkServes : List Reading → FlowGraph M → NodeId → Packet → List (GraphNode M × Packet)
  | [], _, _, _ => []
  | reading :: readings, g, current, packet =>
    g.serves current packet reading ++
      match g.visit current packet reading with
      | (_, _, .stop _) => []
      | (g, _, .next current packet) => walkServes readings g current packet

def sequentialServes (g : FlowGraph M) (entry : NodeId) (packet : Packet) (readings : List Reading) :
    List (GraphNode M × Packet) :=
  if entry ∈ g.entryPoints then walkServes readings g entry packet else []

def receives (g : FlowGraph M) (current : NodeId) : List (GraphNode M × Packet) :=
  match g.node current with
  | none => []
  | some node =>
    match node.queue.tryRecvPrioritized with
    | none => []
    | some (packet, queue) => [({ node with queue := queue }, packet)]

theorem receive_receives {g g' : FlowGraph M} {current : NodeId} {elapsed : Duration} {step : BranchStep}
    (h : g.receive current elapsed = some (g', step)) : ∃ node packet, g.receives current = [(node, packet)] ∧
      g' = g.modifyNode current fun _ => (node.processTimed packet elapsed).1 := by
  unfold receive at h
  unfold receives
  cases hnode : g.node current with
  | none =>
    rw [hnode] at h
    cases h
  | some node =>
    rw [hnode] at h
    dsimp only at h ⊢
    rcases hrecv : node.queue.tryRecvPrioritized with _ | ⟨packet, queue⟩
    · rw [hrecv] at h
      cases h
    · rw [hrecv] at h
      obtain ⟨rfl, -⟩ := Prod.mk.inj (Option.some.inj h)
      exact ⟨_, _, rfl, rfl⟩

omit [Node M] in
theorem onward_unwound (g : FlowGraph M) (current : NodeId) (result : Outcome) :
    (∃ outcome, g.onward current result = .stop outcome ∧ outcome.unwound) ↔ result.unwound := by
  unfold onward
  split
  · next packet =>
    refine iff_of_false ?_ Bool.false_ne_true
    rintro ⟨outcome, hstop, hunwound⟩
    split_ifs at hstop
    · cases hstop
      cases hunwound
    · split at hstop
      · cases hstop
        cases hunwound
      · cases hstop
  · constructor
    · rintro ⟨outcome, hstop, hunwound⟩
      cases hstop
      exact hunwound
    · exact fun hunwound => ⟨result, rfl, hunwound⟩

theorem visit_unwound (g : FlowGraph M) (current : NodeId) (packet : Packet) (reading : Reading) :
    (∃ outcome, (g.visit current packet reading).2.2 = .stop outcome ∧ outcome.unwound) ↔
      ∃ served ∈ g.serves current packet reading, (served.1.process served.2).2.unwound := by
  have hnone : ∀ {e : ExecutionError}, (∃ outcome, Hop.stop (.returned (.error e)) = .stop outcome ∧ outcome.unwound) ↔
      ∃ served ∈ ([] : List (GraphNode M × Packet)), (served.1.process served.2).2.unwound := by
    intro e
    refine iff_of_false ?_ (by simp)
    rintro ⟨outcome, hstop, hunwound⟩
    cases hstop
    cases hunwound
  unfold visit serves
  cases g.node current with
  | none => exact hnone
  | some node =>
    dsimp only
    cases node.checkPayloadLimit packet with
    | error => exact hnone
    | ok =>
      dsimp only
      obtain ⟨result, hresult⟩ := node.enqueueAndDequeueSync_returned (packet.recordHop current reading.now)
      rcases hqueue : node.enqueueAndDequeueSync (packet.recordHop current reading.now) with
        ⟨node', (_ | queued) | reason⟩
      · exact hnone
      · dsimp only
        rw [onward_unwound, GraphNode.processTimed_unwound]
        simp only [List.mem_singleton, exists_eq_left]
      · rw [hqueue] at hresult
        cases hresult

theorem walk_unwound (readings : List Reading) (g : FlowGraph M) (current : NodeId) (packet : Packet) :
    (∃ outcome, (walk readings g current packet).outcome = some outcome ∧ outcome.unwound) ↔
      ∃ served ∈ walkServes readings g current packet, (served.1.process served.2).2.unwound := by
  induction readings generalizing g current packet with
  | nil => simp [walk, walkServes]
  | cons reading readings ih =>
    have hvisit := g.visit_unwound current packet reading
    unfold walk walkServes
    simp only [List.mem_append, or_and_right, exists_or, ← hvisit]
    rcases g.visit current packet reading with ⟨g', calls, outcome | ⟨next, onward⟩⟩
    · simp
    · dsimp only
      rw [ih]
      simp

theorem executeSequential_unwound (g : FlowGraph M) (entry : NodeId) (packet : Packet) (readings : List Reading) :
    (∃ outcome, (g.executeSequential entry packet readings).outcome = some outcome ∧ outcome.unwound) ↔
      ∃ served ∈ g.sequentialServes entry packet readings, (served.1.process served.2).2.unwound := by
  unfold executeSequential sequentialServes
  split_ifs
  · exact walk_unwound readings g entry packet
  · simp [Unwind.unwound]

variable {g g' : FlowGraph M} {limit : NodeId → Option Nat}

theorem AllBounded.modifyNode (hg : g.AllBounded limit) {id : NodeId} {f : GraphNode M → GraphNode M}
    (h : ∀ node, g.node id = some node → (f node).Bounded (limit id)) : (g.modifyNode id f).AllBounded limit := by
  intro n node' hnode'
  rw [node_modifyNode] at hnode'
  split_ifs at hnode' with hn
  · obtain ⟨node, hnode, rfl⟩ := Option.map_eq_some_iff.mp hnode'
    subst hn
    exact h node hnode
  · exact hg n node' hnode'

theorem AllBounded.insert (hg : g.AllBounded limit) {id : NodeId} {node : GraphNode M}
    (hnodes : g'.nodes = g.nodes.insert id node) {limit' : NodeId → Option Nat} (hnew : node.Bounded (limit' id))
    (hlimit : ∀ n, n ≠ id → limit' n = limit n) : g'.AllBounded limit' := by
  intro n node' hnode'
  rw [FlowGraph.node, hnodes] at hnode'
  by_cases hn : n = id
  · subst hn
    rw [AList.lookup_insert] at hnode'
    rw [← Option.some.inj hnode']
    exact hnew
  · rw [AList.lookup_insert_ne hn] at hnode'
    rw [hlimit n hn]
    exact hg n node' hnode'

theorem AllBounded.erase (hg : g.AllBounded limit) {id : NodeId} (hnodes : g'.nodes = g.nodes.erase id) :
    g'.AllBounded limit := by
  intro n node hnode
  rw [FlowGraph.node, hnodes] at hnode
  by_cases hn : n = id
  · subst hn
    rw [AList.lookup_erase] at hnode
    cases hnode
  · rw [AList.lookup_erase_ne hn] at hnode
    exact hg n node hnode

theorem AllBounded.of_nodes_eq (hg : g.AllBounded limit) (hnodes : g'.nodes = g.nodes) : g'.AllBounded limit := by
  intro n node hnode
  rw [FlowGraph.node, hnodes] at hnode
  exact hg n node hnode

theorem AllBounded.visit (hstatic : StaticMetadata M) (hg : g.AllBounded limit) (current : NodeId) (packet : Packet)
    (reading : Reading) : (g.visit current packet reading).1.AllBounded limit ∧
      ∀ served ∈ g.serves current packet reading, served.2.Fits served.1.payloadLimit := by
  unfold FlowGraph.visit serves
  cases hnode : g.node current with
  | none => exact ⟨hg, fun _ h => absurd h List.not_mem_nil⟩
  | some node =>
    dsimp only
    have hbounded := hg current node hnode
    cases hcheck : node.checkPayloadLimit packet with
    | error => exact ⟨hg, fun _ h => absurd h List.not_mem_nil⟩
    | ok =>
      dsimp only
      have hfits : (packet.recordHop current reading.now).Fits (limit current) :=
        hbounded.declares ▸ GraphNode.fits_of_checkPayloadLimit hcheck
      rcases hqueue : node.enqueueAndDequeueSync (packet.recordHop current reading.now) with ⟨node', result⟩
      obtain ⟨hnode', htaken⟩ := hbounded.enqueueAndDequeueSync hfits hqueue
      have hg' : (g.modifyNode current fun _ => node').AllBounded limit := hg.modifyNode fun _ _ => hnode'
      rcases result with (_ | queued) | _
      · exact ⟨hg', fun _ h => absurd h List.not_mem_nil⟩
      · refine ⟨hg.modifyNode fun _ _ => hnode'.processTimed hstatic queued reading.elapsed, ?_⟩
        intro served hserved
        rw [List.mem_singleton.mp hserved, hnode'.declares]
        exact htaken queued rfl
      · exact ⟨hg', fun _ h => absurd h List.not_mem_nil⟩

theorem AllBounded.walk (hstatic : StaticMetadata M) (hg : g.AllBounded limit) (readings : List Reading)
    (current : NodeId) (packet : Packet) : (walk readings g current packet).graph.AllBounded limit ∧
      ∀ served ∈ walkServes readings g current packet, served.2.Fits served.1.payloadLimit := by
  induction readings generalizing g current packet with
  | nil => exact ⟨hg, fun _ h => absurd h List.not_mem_nil⟩
  | cons reading readings ih =>
    obtain ⟨hvisit, hfirst⟩ := hg.visit hstatic current packet reading
    unfold FlowGraph.walk walkServes
    rcases hv : g.visit current packet reading with ⟨g', calls, outcome | ⟨next, onward⟩⟩ <;> rw [hv] at hvisit
    · refine ⟨hvisit, fun served hserved => hfirst served ?_⟩
      rwa [List.append_nil] at hserved
    · obtain ⟨hwalk, hrest⟩ := ih hvisit next onward
      refine ⟨hwalk, fun served hserved => ?_⟩
      rcases List.mem_append.mp hserved with h | h
      · exact hfirst served h
      · exact hrest served h

theorem AllBounded.executeSequential (hstatic : StaticMetadata M) (hg : g.AllBounded limit) (entry : NodeId)
    (packet : Packet) (readings : List Reading) : (g.executeSequential entry packet readings).graph.AllBounded limit ∧
      ∀ served ∈ g.sequentialServes entry packet readings, served.2.Fits served.1.payloadLimit := by
  unfold FlowGraph.executeSequential sequentialServes
  split_ifs with hentry
  · exact hg.walk hstatic readings entry packet
  · exact ⟨hg, fun _ h => absurd h List.not_mem_nil⟩

theorem AllBounded.receives (hg : g.AllBounded limit) {current : NodeId} {node : GraphNode M} {packet : Packet}
    (h : (node, packet) ∈ g.receives current) : packet.Fits (limit current) ∧ node.Bounded (limit current) := by
  unfold FlowGraph.receives at h
  split at h
  · cases h
  · next node₀ hnode₀ =>
    split at h
    · cases h
    · next packet₀ queue hrecv =>
      obtain ⟨rfl, rfl⟩ := Prod.mk.inj (List.mem_singleton.mp h)
      exact (hg current node₀ hnode₀).tryRecv hrecv

end FlowGraph
end Nyarix
