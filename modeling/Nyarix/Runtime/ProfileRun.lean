import Nyarix.Execution.Transparency
import Nyarix.Graph.Topology
import Nyarix.Runtime.GraphBuilder

/-! Running the graph of a profile: a packet is handed from module to module, up to the first sink,
where the walk ends as at any exit point. -/

namespace Nyarix
variable {M R : Type} [Node M]

def upToSink : List (ArcNode M) → List (ArcNode M)
  | [] => []
  | arc :: modules => if Node.nodeType arc.module = .sink then [arc] else arc :: upToSink modules

/-- The calls that hand a packet from module to module, and what the last one returns. -/
inductive Handed (newId : Nat → NodeId) : Nat → List (ArcNode M) → List Reading → Packet → List ProcessCall → Packet → Prop
  | nil {k packet} : Handed newId k [] [] packet [] packet
  | cons {k arc modules reading readings packet m out calls output}
    (hprocess : Node.process arc.module (packet.recordHop (newId k) reading.now) = (m, .returned (.ok (some out))))
    (h : Handed newId (k + 1) modules readings out calls output) :
    Handed newId k (arc :: modules) (reading :: readings) packet
      (⟨newId k, arc.ptr, packet.recordHop (newId k) reading.now⟩ :: calls) output

/-- Each module in turn gets a packet within its payload limit and takes no longer than it may. -/
def WithinLimits (newId : Nat → NodeId) : Nat → List (ArcNode M) → List Reading → Packet → Prop
  | _, [], [], _ => True
  | k, arc :: modules, reading :: readings, packet =>
    let node := GraphNode.new (newId k) arc .default
    node.checkPayloadLimit packet = .ok () ∧
      ∀ node' out, node.process (packet.recordHop (newId k) reading.now) = (node', .returned (.ok (some out))) →
        node'.checkProcessingTime reading.elapsed = .ok () ∧ WithinLimits newId (k + 1) modules readings out
  | _, _, _, _ => False

/-- The module is its node's alone, and returns a packet for every packet within its limit. -/
structure Passes (arc : ArcNode M) : Prop where
  owned : arc.strongCount = 1
  returns : ∀ id packet, (GraphNode.new id arc .default).checkPayloadLimit packet = .ok () →
    ∃ m out, Node.process arc.module packet = (m, .returned (.ok (some out)))

variable {newId : Nat → NodeId} {modules : List (ArcNode M)} {g g' : FlowGraph M}

theorem process_new {arc : ArcNode M} (howned : arc.strongCount = 1) {packet out : Packet} {m : M} (id : NodeId)
    (h : Node.process arc.module packet = (m, .returned (.ok (some out)))) :
    ∃ node', (GraphNode.new id arc .default).process packet = (node', .returned (.ok (some out))) := by
  refine ⟨{ GraphNode.new id arc .default with module := { arc with module := m } }, ?_⟩
  rw [GraphNode.process, GraphNode.call]
  dsimp only [GraphNode.new]
  rw [ArcNode.call, if_pos howned, h]

theorem ChainOf.exits (hnew : Set.InjOn newId (Set.Iio modules.length)) (h : ChainOf newId modules g) {k : Nat}
    {arc : ArcNode M} (hk : modules[k]? = some arc) :
    newId k ∈ g.exitPoints ↔ k + 1 = modules.length ∨ Node.nodeType arc.module = .sink := by
  rw [h.exitPoints]
  constructor
  · rintro ⟨j, arc', hj, hid, hexit⟩
    obtain rfl : k = j := hnew (List.getElem?_eq_some_iff.mp hk).1 (List.getElem?_eq_some_iff.mp hj).1 hid
    rw [hk] at hj
    cases hj
    exact hexit
  · exact fun hexit => ⟨k, arc, hk, rfl, hexit⟩

theorem ChainOf.onward (hnew : Set.InjOn newId (Set.Iio modules.length)) (h : ChainOf newId modules g) {k : Nat}
    (hk : k + 1 < modules.length) (packet : Packet) :
    ∃ edge, (g.edgesFrom (newId k)).find? (·.accepts packet) = some edge ∧ edge.toNode = newId (k + 1) := by
  have hmem : ⟨newId k, newId (k + 1), .sequential, none⟩ ∈ g.edgesFrom (newId k) := by
    refine List.mem_filter.mpr ⟨?_, decide_eq_true rfl⟩
    rw [h.edges]
    exact List.mem_map.mpr ⟨k, List.mem_range.mpr (by omega), rfl⟩
  obtain ⟨edge, hedge⟩ := Option.isSome_iff_exists.mp (List.find?_isSome.mpr ⟨_, hmem, rfl⟩ :
    ((g.edgesFrom (newId k)).find? (·.accepts packet)).isSome)
  refine ⟨edge, hedge, ?_⟩
  obtain ⟨hedges, hfrom⟩ := List.mem_filter.mp (List.mem_of_find?_eq_some hedge)
  rw [h.edges] at hedges
  obtain ⟨j, hj, rfl⟩ := List.mem_map.mp hedges
  have hlt := List.mem_range.mp hj
  rw [hnew (Set.mem_Iio.mpr (by omega)) (Set.mem_Iio.mpr (by omega)) (of_decide_eq_true hfrom)]

theorem visit_idle {current : NodeId} {node node' : GraphNode M} (hnode : g.node current = some node)
    (howned : node.module.strongCount = 1) (hidle : node.queue.packets = []) {packet out : Packet} {reading : Reading}
    (hlimit : node.checkPayloadLimit packet = .ok ())
    (hprocess : node.process (packet.recordHop current reading.now) = (node', .returned (.ok (some out))))
    (htime : node'.checkProcessingTime reading.elapsed = .ok ()) :
    g.visit current packet reading = (g.modifyNode current fun _ => node',
      [⟨current, node.module.ptr, packet.recordHop current reading.now⟩], g.onward current (.returned (.ok (some out)))) := by
  have htimed : node.processTimed (packet.recordHop current reading.now) reading.elapsed =
      (node', .returned (.ok (some out))) := by
    rw [GraphNode.processTimed, hprocess]
    dsimp only
    rw [htime]
  have hcalls : node.processCalls current (packet.recordHop current reading.now) =
      [⟨current, node.module.ptr, packet.recordHop current reading.now⟩] := if_pos howned
  unfold FlowGraph.visit
  rw [hnode]
  simp only [hlimit, GraphNode.enqueueAndDequeueSync_empty hidle, htimed, hcalls]

theorem upToSink_cons {arc : ArcNode M} {rest : List (ArcNode M)} {stops : Prop} [Decidable stops]
    (h : stops ↔ rest = [] ∨ Node.nodeType arc.module = .sink) :
    upToSink (arc :: rest) = arc :: if stops then [] else upToSink rest := by
  rw [upToSink]
  split_ifs with hsink hstop hstop
  · rfl
  · exact absurd (h.mpr (.inr hsink)) hstop
  · rw [(h.mp hstop).resolve_right hsink, upToSink]
  · rfl

theorem fresh_modifyNode (hnew : Set.InjOn newId (Set.Iio modules.length)) {k : Nat}
    (hfresh : ∀ j arc, k ≤ j → modules[j]? = some arc → g'.node (newId j) = some (.new (newId j) arc .default))
    (node' : GraphNode M) : ∀ j arc, k + 1 ≤ j → modules[j]? = some arc →
      (g'.modifyNode (newId k) fun _ => node').node (newId j) = some (.new (newId j) arc .default) := by
  intro j arc hj hmodule
  have hjlt := (List.getElem?_eq_some_iff.mp hmodule).1
  have hne : newId j ≠ newId k := fun heq =>
    Nat.ne_of_gt hj (hnew (Set.mem_Iio.mpr hjlt) (Set.mem_Iio.mpr (by omega)) heq)
  rw [FlowGraph.node_modifyNode, if_neg hne]
  exact hfresh j arc (Nat.le_of_succ_le hj) hmodule

theorem ChainOf.walk_handed (hnew : Set.InjOn newId (Set.Iio modules.length)) (h : ChainOf newId modules g) {k : Nat}
    {rest : List (ArcNode M)} (hrest : modules.drop k = rest) (hne : rest ≠ []) (hpasses : ∀ arc ∈ rest, Passes arc)
    (hsame : g.SameTopology g') (hfresh : ∀ j arc, k ≤ j → modules[j]? = some arc →
      g'.node (newId j) = some (.new (newId j) arc .default)) {readings : List Reading} {packet : Packet}
    (hlimits : WithinLimits newId k (upToSink rest) readings packet) :
    ∃ calls output, Handed newId k (upToSink rest) readings packet calls output ∧
      (FlowGraph.walk readings g' (newId k) packet).calls = calls ∧
      (FlowGraph.walk readings g' (newId k) packet).outcome = some (.returned (.ok (some output))) := by
  induction rest generalizing k g' readings packet with
  | nil => exact absurd rfl hne
  | cons arc rest ih =>
    have hk : modules[k]? = some arc := by
      have hfirst := congrArg (·[0]?) hrest
      simpa using hfirst
    have hdrop : modules.drop (k + 1) = rest := by
      rw [← List.tail_drop, hrest, List.tail_cons]
    have hlast : k + 1 = modules.length ↔ rest = [] := by
      rw [← hdrop, List.drop_eq_nil_iff]
      have hlt := (List.getElem?_eq_some_iff.mp hk).1
      omega
    have hpass := hpasses arc List.mem_cons_self
    have hexit := h.exits hnew hk
    rw [← hsame.exitPoints] at hexit
    rw [upToSink_cons (hexit.trans (or_congr_left hlast))] at hlimits ⊢
    cases readings with
    | nil => exact hlimits.elim
    | cons reading readings =>
      obtain ⟨hfirst, hnext⟩ := hlimits
      obtain ⟨m, out, hprocess⟩ := hpass.returns (newId k) (packet.recordHop (newId k) reading.now) hfirst
      obtain ⟨node', hprocessed⟩ := process_new hpass.owned (newId k) hprocess
      obtain ⟨htime, hafter⟩ := hnext node' out hprocessed
      have hvisit := visit_idle (hfresh k arc (Nat.le_refl k) hk) hpass.owned rfl hfirst hprocessed htime
      rw [FlowGraph.walk, hvisit]
      split_ifs at hafter ⊢ with hstop
      · -- the walk ends at this node, with no reading left over
        cases readings with
        | cons => exact hafter.elim
        | nil =>
          refine ⟨_, out, .cons hprocess .nil, ?_⟩
          rw [FlowGraph.onward, if_pos hstop]
          exact ⟨rfl, rfl⟩
      · -- the walk goes on to the next node, whose module nobody has called yet
        have hrest' : rest ≠ [] := fun hnil => hstop (hexit.mpr (.inl (hlast.mpr hnil)))
        have hlt : k + 1 < modules.length := by
          have hle : k < modules.length := (List.getElem?_eq_some_iff.mp hk).1
          have hne' : k + 1 ≠ modules.length := fun heq => hrest' (hlast.mp heq)
          omega
        obtain ⟨edge, hfind, hto⟩ := h.onward hnew hlt out
        rw [← hsame.edgesFrom] at hfind
        have hfresh' := fresh_modifyNode hnew hfresh node'
        obtain ⟨calls, output, hhanded, hcalls, houtcome⟩ := ih hdrop hrest'
          (fun arc' harc' => hpasses arc' (List.mem_cons_of_mem _ harc'))
          (hsame.trans (FlowGraph.sameTopology_modifyNode g' (newId k) _)) hfresh' hafter
        refine ⟨_, output, .cons hprocess hhanded, ?_⟩
        rw [FlowGraph.onward, if_neg hstop, hfind]
        dsimp only
        rw [hto]
        exact ⟨congrArg (_ :: ·) hcalls, houtcome⟩

theorem Handed.nodes {k : Nat} {readings : List Reading} {packet output : Packet} {calls : List ProcessCall}
    (h : Handed newId k modules readings packet calls output) :
    calls.map ProcessCall.node = (List.range' k modules.length).map newId := by
  induction h with
  | nil => rfl
  | cons _ _ ih =>
    rw [List.map_cons, ih, List.length_cons, List.range'_succ, List.map_cons]

theorem upToSink_eq_self (h : ∀ arc ∈ modules.dropLast, Node.nodeType arc.module ≠ .sink) : upToSink modules = modules := by
  induction modules with
  | nil => rfl
  | cons arc modules ih =>
    rw [upToSink]
    cases modules with
    | nil => exact ite_self _
    | cons next modules =>
      rw [List.dropLast_cons_cons, List.forall_mem_cons] at h
      rw [if_neg h.1, ih h.2]

/-- The graph of a profile hands a packet to the modules of the stack in order, up to the first sink: to all of
them if no sink stands before the last. -/
theorem built_profile_runs (resolve : R → String → R × Option (ArcNode M)) (profile : ProfileConfig) (r : R)
    (hnew : Set.InjOn newId (Set.Iio profile.stack.length)) {order : FlowGraph M → List NodeId}
    (horder : ∀ g, (order g).Perm g.nodeIds) {fuel : Nat} (hfuel : profile.stack.length ≤ fuel)
    (hbuild : buildFromProfile resolve newId profile r order fuel = some (.returned (.ok g)))
    (hmodules : resolved resolve r profile.stack = modules.map some) (hne : profile.stack ≠ [])
    (hpasses : ∀ arc ∈ modules, Passes arc) {packet : Packet} {readings : List Reading}
    (hlimits : WithinLimits newId 0 (upToSink modules) readings packet) :
    ((∀ arc ∈ modules.dropLast, Node.nodeType arc.module ≠ .sink) → upToSink modules = modules) ∧
      ∃ calls output, Handed newId 0 (upToSink modules) readings packet calls output ∧
        calls.map ProcessCall.node = (List.range (upToSink modules).length).map newId ∧
        (g.executeSequential (newId 0) packet readings).calls = calls ∧
        (g.executeSequential (newId 0) packet readings).outcome = some (.returned (.ok (some output))) := by
  refine ⟨upToSink_eq_self, ?_⟩
  rcases buildFromProfile_cases resolve profile r hnew horder hfuel with
    ⟨modules', g', hmodules', hlen, hwf, hchain, hbuild'⟩ | ⟨k, name, -, -, -, hbuild'⟩
  · rw [hbuild] at hbuild'
    cases hbuild'
    rw [hmodules] at hmodules'
    obtain rfl := List.map_injective_iff.mpr (Option.some_injective _) hmodules'
    rw [← hlen] at hnew
    have hpos : 0 < modules.length := by
      rw [hlen]
      exact List.length_pos_of_ne_nil hne
    have hentry : newId 0 ∈ g.entryPoints :=
      (hchain.entryPoints _).mpr ⟨0, modules[0], List.getElem?_eq_getElem hpos, rfl, .inl rfl⟩
    obtain ⟨calls, output, hhanded, hcalls, houtcome⟩ := hchain.walk_handed hnew (List.drop_zero)
      (List.ne_nil_of_length_pos hpos) hpasses (.refl g) (fun j arc _ hj => hchain.node j arc hj) hlimits
    rw [FlowGraph.executeSequential, if_pos hentry]
    refine ⟨calls, output, hhanded, ?_, hcalls, houtcome⟩
    rw [hhanded.nodes, List.range_eq_range']
  · rw [hbuild] at hbuild'
    cases hbuild'

def sinkInside : List (ArcNode StubNode) :=
  [⟨0, 1, ⟨"first", .transformer, .passes⟩⟩, ⟨0, 1, ⟨"sink", .sink, .passes⟩⟩, ⟨0, 1, ⟨"last", .transformer, .passes⟩⟩]

theorem sinkInside_passes : ∀ arc ∈ sinkInside, Passes arc := by
  have hpass : ∀ name nodeType, Passes (⟨0, 1, ⟨name, nodeType, .passes⟩⟩ : ArcNode StubNode) :=
    fun name nodeType => ⟨rfl, fun _ packet _ => ⟨_, packet, rfl⟩⟩
  simp only [sinkInside, List.forall_mem_cons]
  exact ⟨hpass _ _, hpass _ _, hpass _ _, List.forall_mem_nil _⟩

theorem built_profile_runs_sinkInside : ∃ g : FlowGraph StubNode,
    buildFromProfile stubResolve numbered ⟨["first", "sink", "last"]⟩ () FlowGraph.nodeIds 3 = some (.returned (.ok g)) ∧
    ((∀ arc ∈ sinkInside.dropLast, Node.nodeType arc.module ≠ .sink) → upToSink sinkInside = sinkInside) ∧
      ∃ calls output, Handed numbered 0 (upToSink sinkInside) [⟨0, 1⟩, ⟨2, 1⟩] (stubPacket 7) calls output ∧
        calls.map ProcessCall.node = (List.range (upToSink sinkInside).length).map numbered ∧
        (g.executeSequential (numbered 0) (stubPacket 7) [⟨0, 1⟩, ⟨2, 1⟩]).calls = calls ∧
        (g.executeSequential (numbered 0) (stubPacket 7) [⟨0, 1⟩, ⟨2, 1⟩]).outcome = some (.returned (.ok (some output))) := by
  have hbuild : ∃ g, buildFromProfile stubResolve numbered ⟨["first", "sink", "last"]⟩ () FlowGraph.nodeIds 3 =
      some (.returned (.ok g)) := ⟨_, rfl⟩
  obtain ⟨g, hbuild⟩ := hbuild
  refine ⟨g, hbuild, built_profile_runs stubResolve ⟨["first", "sink", "last"]⟩ () (numbered_injOn (by decide)) (fun _ => .refl _)
    (Nat.le_refl 3) hbuild rfl (by decide) sinkInside_passes ?_⟩
  exact ⟨rfl, fun node' out h => ⟨rfl, rfl, fun node'' out' h' => ⟨rfl, trivial⟩⟩⟩

theorem sink_ends_profile : ∃ g : FlowGraph StubNode,
    buildFromProfile stubResolve numbered ⟨["first", "sink", "last"]⟩ () FlowGraph.nodeIds 3 = some (.returned (.ok g)) ∧
      resolved stubResolve () ["first", "sink", "last"] = sinkInside.map some ∧ (∀ arc ∈ sinkInside, Passes arc) ∧
      (g.executeSequential (numbered 0) (stubPacket 7) [⟨0, 1⟩, ⟨2, 1⟩, ⟨4, 1⟩]).calls.map ProcessCall.node =
        [numbered 0, numbered 1] := by
  refine ⟨_, rfl, rfl, sinkInside_passes, rfl⟩

end Nyarix
