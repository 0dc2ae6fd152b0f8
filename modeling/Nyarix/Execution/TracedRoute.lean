import Nyarix.Execution.Routes
import Nyarix.PacketTrace

/-! What the trace of a delivered packet tells: the way it has come through the graph, node by node, with
the time at which it came by each, as long as no module rewrites it. -/

namespace Nyarix

structure SameTrace (m m' : Metadata) : Prop where
  trace : m'.trace = m.trace
  timestamps : m'.traceTimestampsMs = m.traceTimestampsMs
  traced : m'.traced = m.traced
  detailed : m'.traceDetailed = m.traceDetailed
  created : m'.createdAt = m.createdAt

/-- A module may change the packets that it passes on, but not what their traces say. -/
def KeepsTrace (M : Type) [Node M] : Prop := ∀ (m : M) (packet packet' : Packet),
  (Node.process m packet).2 = .returned (.ok (some packet')) → SameTrace packet.metadata packet'.metadata

/-- A traced packet has come by these nodes at these times, and its metadata has become this. -/
structure CameBy (m : Metadata) (hops : List (NodeId × Reading)) (m' : Metadata) : Prop where
  trace : m'.trace = m.trace ++ hops.map Prod.fst
  timestamps : m'.traceTimestampsMs =
    m.traceTimestampsMs ++ if m.traceDetailed then hops.map fun hop => m.elapsedMs hop.2.now else []
  traced : m'.traced = true
  detailed : m'.traceDetailed = m.traceDetailed
  created : m'.createdAt = m.createdAt

namespace CameBy
variable {m m' m'' : Metadata} {hops hops' : List (NodeId × Reading)}

theorem recordHop (htraced : m.traced = true) (node : NodeId) (reading : Reading) :
    CameBy m [(node, reading)] (m.recordHop node reading.now) := by
  obtain ⟨htrace, htimes⟩ := m.step_trace (.recordHop node reading.now)
  unfold Metadata.appends at htrace htimes
  dsimp only at htrace htimes
  rw [if_pos htraced] at htrace htimes
  have hrest : (m.recordHop node reading.now).traced = m.traced ∧
      (m.recordHop node reading.now).traceDetailed = m.traceDetailed ∧
      (m.recordHop node reading.now).createdAt = m.createdAt := by
    unfold Metadata.recordHop
    split_ifs
    · exact ⟨rfl, rfl, rfl⟩
    · dsimp only
      split_ifs <;> exact ⟨rfl, rfl, rfl⟩
  refine ⟨htrace, htimes.trans ?_, hrest.1.trans htraced, hrest.2.1, hrest.2.2⟩
  cases m.traceDetailed <;> rfl

theorem same (h : CameBy m hops m') (hsame : SameTrace m' m'') : CameBy m hops m'' :=
  ⟨hsame.trace.trans h.trace, hsame.timestamps.trans h.timestamps, hsame.traced.trans h.traced,
    hsame.detailed.trans h.detailed, hsame.created.trans h.created⟩

theorem append (h : CameBy m hops m') (h' : CameBy m' hops' m'') : CameBy m (hops ++ hops') m'' where
  trace := by rw [h'.trace, h.trace, List.map_append, List.append_assoc]
  timestamps := by
    have helapsed : ∀ now, m'.elapsedMs now = m.elapsedMs now := by
      intro now
      unfold Metadata.elapsedMs
      rw [h.created]
    rw [h'.timestamps, h.timestamps, h.detailed, List.append_assoc]
    cases m.traceDetailed with
    | false => rfl
    | true => simp only [if_true, helapsed, List.map_append]
  traced := h'.traced
  detailed := h'.detailed.trans h.detailed
  created := h'.created.trans h.created

theorem summary (h : CameBy m hops m') (hdetailed : m.traceDetailed = true) (htrace : m.trace = [])
    (htimes : m.traceTimestampsMs = []) :
    m'.traceSummary = hops.map fun hop => ⟨hop.1, some (m.elapsedMs hop.2.now)⟩ := by
  have hstamps : m'.traceTimestampsMs = hops.map fun hop => m.elapsedMs hop.2.now := by
    rw [h.timestamps, htimes, hdetailed, if_pos rfl, List.nil_append]
  unfold Metadata.traceSummary
  rw [h.trace, htrace, List.nil_append, hstamps]
  apply List.ext_getElem
  · simp
  · intro i hi hi'
    have hlength : i < hops.length := by simpa using hi'
    simp [hlength]

end CameBy

namespace FlowGraph
variable {M : Type} [Node M] {g : FlowGraph M}

theorem process_keepsTrace (hkeeps : KeepsTrace M) {node node' : GraphNode M} {packet packet' : Packet} {elapsed : Duration}
    (h : node.processTimed packet elapsed = (node', .returned (.ok (some packet')))) :
    SameTrace packet.metadata packet'.metadata := by
  unfold GraphNode.processTimed at h
  rcases hprocess : node.process packet with ⟨node₁, outcome | reason⟩
  · rw [hprocess] at h
    dsimp only at h
    cases hcheck : node₁.checkProcessingTime elapsed with
    | error e =>
      rw [hcheck] at h
      cases h
    | ok =>
      rw [hcheck] at h
      rcases outcome with e | p
      · cases h
      · cases h
        unfold GraphNode.process GraphNode.call ArcNode.call at hprocess
        split_ifs at hprocess with hcount
        · have hmodule := congrArg Prod.snd hprocess
          exact hkeeps node.module.module packet packet' hmodule
        · cases congrArg Prod.snd hprocess
  · rw [hprocess] at h
    cases h

theorem visit_cameBy (hkeeps : KeepsTrace M) (hq : g.QueuesEmpty) {current : NodeId} {packet : Packet}
    (htraced : packet.metadata.traced = true) (reading : Reading) :
    (∀ next packet', (g.visit current packet reading).2.2 = .next next packet' →
      CameBy packet.metadata [(current, reading)] packet'.metadata) ∧
    ∀ output, (g.visit current packet reading).2.2 = .stop (.returned (.ok (some output))) →
      current ∈ g.exitPoints ∧ CameBy packet.metadata [(current, reading)] output.metadata := by
  have hhop := CameBy.recordHop htraced current reading
  unfold visit
  cases hnode : g.node current with
  | none => exact ⟨fun _ _ h => (by cases h), fun _ h => (by cases h)⟩
  | some node =>
    dsimp only
    cases hlimit : node.checkPayloadLimit packet with
    | error e => exact ⟨fun _ _ h => (by cases h), fun _ h => (by cases h)⟩
    | ok =>
      dsimp only
      rw [GraphNode.enqueueAndDequeueSync_empty (hq current node hnode)]
      dsimp only
      rcases hprocess : node.processTimed (packet.recordHop current reading.now) reading.elapsed with
        ⟨node', (e | _ | packet') | reason⟩
      · exact ⟨fun _ _ h => (by cases h), fun _ h => (by cases h)⟩
      · exact ⟨fun _ _ h => (by cases h), fun _ h => (by cases h)⟩
      · have hcame := hhop.same (process_keepsTrace hkeeps hprocess)
        unfold onward
        dsimp only
        split_ifs with hexit
        · refine ⟨fun _ _ h => (by cases h), fun output houtput => ?_⟩
          cases houtput
          exact ⟨hexit, hcame⟩
        · cases hfind : (g.edgesFrom current).find? (·.accepts packet') with
          | none => exact ⟨fun _ _ h => (by cases h), fun _ h => (by cases h)⟩
          | some edge =>
            refine ⟨fun next packet'' hnext => ?_, fun _ h => (by cases h)⟩
            cases hnext
            exact hcame
      · exact ⟨fun _ _ h => (by cases h), fun _ h => (by cases h)⟩

theorem walk_cameBy (hkeeps : KeepsTrace M) (hq : g.QueuesEmpty) (hends : ∀ edge ∈ g.edges, edge.toNode ∈ g.nodes)
    {readings : List Reading} {current : NodeId} (hcurrent : current ∈ g.nodes) {packet : Packet}
    (htraced : packet.metadata.traced = true) {output : Packet}
    (h : (walk readings g current packet).outcome = some (.returned (.ok (some output)))) :
    ∃ route, (current :: route).IsChain g.Hops ∧ (∀ n ∈ current :: route, n ∈ g.nodes) ∧
      (∃ exit ∈ g.exitPoints, (current :: route).getLast? = some exit) ∧
      (current :: route).length ≤ readings.length ∧
      CameBy packet.metadata ((current :: route).zip readings) output.metadata := by
  induction readings generalizing g current packet with
  | nil => cases h
  | cons reading readings ih =>
    obtain ⟨htopology, -, hhops⟩ := g.visit_route current packet reading
    obtain ⟨hnext, hstop⟩ := visit_cameBy hkeeps hq htraced reading
    have hempty : (g.visit current packet reading).1.QueuesEmpty := by
      rw [visit_eq_reference hq]
      exact hq.referenceVisit current packet reading
    unfold walk at h
    rcases hvisit : g.visit current packet reading with ⟨g', calls, outcome | ⟨next, packet'⟩⟩ <;>
      rw [hvisit] at h htopology hhops hnext hstop hempty
    · -- the packet leaves at an exit
      obtain ⟨hexit, hcame⟩ := hstop output (congrArg Hop.stop (Option.some.inj h))
      refine ⟨[], List.isChain_singleton current, ?_, ⟨current, hexit, rfl⟩, Nat.succ_le_succ (Nat.zero_le _), hcame⟩
      rintro n hn
      exact List.mem_singleton.mp hn ▸ hcurrent
    · -- the packet goes on, in a graph that is the same but for the state of a module
      have hhop := hhops next packet' rfl
      have hcame := hnext next packet' rfl
      obtain ⟨edge, hedge, -, rfl⟩ := hhop.edge
      have hends' : ∀ edge ∈ g'.edges, edge.toNode ∈ g'.nodes := by
        intro edge hedge
        rw [htopology.edges] at hedge
        exact (htopology.nodes _).mpr (hends edge hedge)
      obtain ⟨route, hchain, hpresent, ⟨exit, hexit, hlast⟩, hlength, hrest⟩ :=
        ih hempty hends' ((htopology.nodes _).mpr (hends edge hedge)) hcame.traced h
      rw [htopology.hops] at hchain
      rw [htopology.exitPoints] at hexit
      refine ⟨edge.toNode :: route, List.isChain_cons_cons.mpr ⟨hhop, hchain⟩, ?_, ⟨exit, hexit, ?_⟩,
        Nat.succ_le_succ hlength, hcame.append hrest⟩
      · exact List.forall_mem_cons.mpr ⟨hcurrent, fun n hn => (htopology.nodes n).mp (hpresent n hn)⟩
      · rw [List.getLast?_cons_cons]
        exact hlast

/-- A packet in detailed tracing that sequential execution lets out tells the way it has come: its summary
lists a route through the graph from the entry to an exit, node by node, each with the time at which the
packet came by. -/
theorem traced_packet_tells_its_way (hkeeps : KeepsTrace M) (hg : g.Reachable) (hq : g.QueuesEmpty) {entry : NodeId}
    {packet : Packet} (htraced : packet.metadata.traced = true) {readings : List Reading} {output : Packet}
    (h : (g.executeSequential entry packet readings).outcome = some (.returned (.ok (some output)))) :
    ∃ route, g.Route entry route ∧ (∃ exit ∈ g.exitPoints, route.getLast? = some exit) ∧
      route.length ≤ readings.length ∧ output.metadata.trace = packet.metadata.trace ++ route ∧
      (packet.metadata.traceDetailed = true → packet.metadata.trace = [] → packet.metadata.traceTimestampsMs = [] →
        output.metadata.traceSummary =
          (route.zip readings).map fun hop => ⟨hop.1, some (packet.metadata.elapsedMs hop.2.now)⟩) := by
  have hends : ∀ edge ∈ g.edges, edge.toNode ∈ g.nodes := fun edge hedge => (hg.wellFormed.endpoints edge hedge).2
  unfold executeSequential at h
  split_ifs at h with hentry
  · cases readings with
    | nil => cases h
    | cons reading readings =>
      have hpresent : entry ∈ g.nodes := by
        by_contra habsent
        have hnode : g.node entry = none := AList.lookup_eq_none.mpr habsent
        rw [walk, visit, hnode] at h
        cases h
      obtain ⟨rest, hchain, hnodes, hexit, hlength, hcame⟩ := walk_cameBy hkeeps hq hends hpresent htraced h
      refine ⟨entry :: rest, ⟨hentry, rfl, hchain, hnodes⟩, hexit, hlength, ?_, fun hdetailed htrace htimes => ?_⟩
      · rw [hcame.trace, List.map_fst_zip hlength]
      · exact hcame.summary hdetailed htrace htimes
  · cases h

theorem stub_keepsTrace : KeepsTrace StubNode := by
  intro m packet packet' h
  have hpass : m.process packet = .ok (some packet') := Unwind.returned.inj h
  unfold StubNode.process at hpass
  cases hbehaviour : m.behaviour <;> rw [hbehaviour] at hpass <;> cases hpass
  exact ⟨rfl, rfl, rfl, rfl, rfl⟩

def tracedPacket : Packet := { stubPacket 7 with metadata := (stubPacket 7).metadata.withTracing true }

def relayReadings : List Reading := [⟨1000000, 0⟩, ⟨5000000, 0⟩]

theorem traced_packet_tells_its_way_relay : ∃ output,
    (relay.executeSequential ⟨0⟩ tracedPacket relayReadings).outcome = some (.returned (.ok (some output))) ∧
      ∃ route, relay.Route ⟨0⟩ route ∧ (∃ exit ∈ relay.exitPoints, route.getLast? = some exit) ∧
        output.metadata.trace = route ∧ output.metadata.traceSummary =
          (route.zip relayReadings).map fun hop => ⟨hop.1, some (tracedPacket.metadata.elapsedMs hop.2.now)⟩ := by
  have hout : ∃ output, (relay.executeSequential ⟨0⟩ tracedPacket relayReadings).outcome =
      some (.returned (.ok (some output))) := ⟨_, rfl⟩
  obtain ⟨output, houtput⟩ := hout
  obtain ⟨route, hroute, hexit, -, htrace, hsummary⟩ := traced_packet_tells_its_way stub_keepsTrace
    (stubGraph_reachable _ _) (queuesEmpty_of_entries (by decide)) rfl houtput
  exact ⟨output, houtput, route, hroute, hexit, htrace, hsummary rfl rfl rfl⟩

end FlowGraph
end Nyarix
