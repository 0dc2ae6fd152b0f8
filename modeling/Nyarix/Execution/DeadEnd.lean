import Nyarix.Execution.HopLimit

/-! When a graph that passed validation has no dead ends: validation asks for one path from each entry
point to an exit point, and the engine always follows the first edge. -/

namespace Nyarix
namespace FlowGraph

section FirstHops
variable {M : Type}

def FirstHop (g : FlowGraph M) (a b : NodeId) : Prop :=
  a ∉ g.exitPoints ∧ (g.edgesFrom a).head?.map Edge.toNode = some b

def Unconditional (g : FlowGraph M) : Prop := ∀ edge ∈ g.edges, edge.condition = none

/-- Following first edges from an entry point leads on until it comes to an exit point. -/
def LeadsOn (g : FlowGraph M) : Prop :=
  ∀ entry ∈ g.entryPoints, ∀ n, Relation.ReflTransGen g.FirstHop entry n → n ∈ g.exitPoints ∨ g.edgesFrom n ≠ []

/-- On a graph of this shape whose queues are empty no execution fails at a dead end, whatever the
modules do. -/
def NeverDeadEnds (g : FlowGraph M) : Prop :=
  ∀ (M' : Type) [Node M'] (g' : FlowGraph M'), g'.Reachable → g.SameTopology g' → g'.QueuesEmpty →
    ∀ (entry : NodeId) (packet : Packet) (readings : List Reading) (n : NodeId),
      (g'.executeSequential entry packet readings).outcome ≠ some (.returned (.error (deadEnd n)))

theorem find?_unconditional {g : FlowGraph M} (h : g.Unconditional) (current : NodeId) (packet : Packet) :
    (g.edgesFrom current).find? (·.accepts packet) = (g.edgesFrom current).head? := by
  cases hedges : g.edgesFrom current with
  | nil => rfl
  | cons edge edges =>
    have hmem : edge ∈ g.edgesFrom current := hedges ▸ List.mem_cons_self
    have hcondition := h edge (List.mem_of_mem_filter hmem)
    have haccepts : edge.accepts packet = true := by rw [Edge.accepts, hcondition]
    simp only [List.find?_cons, haccepts, List.head?_cons]

theorem hops_iff_firstHop {g : FlowGraph M} (h : g.Unconditional) {a b : NodeId} : g.Hops a b ↔ g.FirstHop a b := by
  rw [Hops, FirstHop]
  refine and_congr_right fun _ => ?_
  simp only [find?_unconditional h, Option.map_eq_some_iff]
  constructor
  · rintro ⟨packet, hedge⟩
    exact hedge
  · intro hedge
    exact ⟨stubPacket 0, hedge⟩

theorem present_of_chain {g : FlowGraph M} (hends : ∀ edge ∈ g.edges, edge.toNode ∈ g.nodes) {current : NodeId}
    {rest : List NodeId} (hcurrent : current ∈ g.nodes) (hchain : (current :: rest).IsChain g.Hops) :
    ∀ n ∈ current :: rest, n ∈ g.nodes := by
  induction rest generalizing current with
  | nil =>
    intro n hn
    exact List.mem_singleton.mp hn ▸ hcurrent
  | cons next rest ih =>
    obtain ⟨hhop, hrest⟩ := List.isChain_cons_cons.mp hchain
    obtain ⟨edge, hedge, -, rfl⟩ := hhop.edge
    exact List.forall_mem_cons.mpr ⟨hcurrent, ih (hends edge hedge) hrest⟩

end FirstHops

theorem checkPayloadLimit_error {M : Type} [Node M] {node : GraphNode M} {packet : Packet} {e : ExecutionError}
    (h : node.checkPayloadLimit packet = .error e) : ∃ error, e = .module error := by
  unfold GraphNode.checkPayloadLimit at h
  split at h
  · cases h
  · split_ifs at h
    exact ⟨_, (Except.error.inj h).symm⟩

theorem checkProcessingTime_error {M : Type} [Node M] {node : GraphNode M} {elapsed : Duration} {e : ExecutionError}
    (h : node.checkProcessingTime elapsed = .error e) : ∃ error, e = .module error := by
  unfold GraphNode.checkProcessingTime at h
  split at h
  · cases h
  · split_ifs at h
    exact ⟨_, (Except.error.inj h).symm⟩

variable {M : Type} [Node M] {g : FlowGraph M}

theorem visit_deadEnd (hq : g.QueuesEmpty) {current n : NodeId} {packet : Packet} {reading : Reading}
    (h : (g.visit current packet reading).2.2 = .stop (.returned (.error (deadEnd n)))) :
    current ∉ g.exitPoints ∧ ∃ packet', (g.edgesFrom current).find? (·.accepts packet') = none := by
  rw [visit_eq_reference hq, referenceVisit] at h
  split at h
  · cases h
  · next node hnode =>
    split at h
    · next e hlimit =>
      obtain ⟨error, rfl⟩ := checkPayloadLimit_error hlimit
      cases h
    · dsimp only at h
      unfold referenceOnward at h
      split at h
      · cases h
      · next outcome _ =>
        split at h
        · next e htime _ =>
          obtain ⟨error, rfl⟩ := checkProcessingTime_error htime
          cases h
        · cases h
        · cases h
        · next packet' _ _ =>
          split_ifs at h with hexit
          · cases h
          · refine ⟨hexit, packet', ?_⟩
            rw [← head?_filter_edges]
            split at h
            · assumption
            · cases h

theorem walk_deadEnd (hq : g.QueuesEmpty) {readings : List Reading} {current n : NodeId} {packet : Packet}
    (h : (walk readings g current packet).outcome = some (.returned (.error (deadEnd n)))) :
    ∃ last packet', Relation.ReflTransGen g.Hops current last ∧ last ∉ g.exitPoints ∧
      (g.edgesFrom last).find? (·.accepts packet') = none := by
  induction readings generalizing g current packet with
  | nil => cases h
  | cons reading readings ih =>
    have hempty := hq.referenceVisit current packet reading
    rw [← visit_eq_reference hq] at hempty
    obtain ⟨hsame, -, hnext⟩ := g.visit_route current packet reading
    rw [walk] at h
    rcases hvisit : g.visit current packet reading with ⟨g', calls, outcome | ⟨next, packet'⟩⟩
    · rw [hvisit] at h
      obtain rfl := Option.some.inj h
      obtain ⟨hexit, packet', hfind⟩ := visit_deadEnd hq (congrArg (fun r => r.2.2) hvisit)
      exact ⟨current, packet', .refl, hexit, hfind⟩
    · rw [hvisit] at h hempty hsame hnext
      obtain ⟨last, packet'', hreach, hexit, hfind⟩ := ih hempty h
      rw [hsame.hops] at hreach
      rw [hsame.exitPoints] at hexit
      rw [hsame.edgesFrom] at hfind
      exact ⟨last, packet'', .head (hnext next packet' rfl) hreach, hexit, hfind⟩

omit [Node M] in
theorem neverDeadEnds_of_leadsOn (hplain : g.Unconditional) (h : g.LeadsOn) : g.NeverDeadEnds := by
  intro M' _ g' _ hsame hq entry packet readings n hend
  unfold executeSequential at hend
  split_ifs at hend with hentry
  · obtain ⟨last, packet', hreach, hexit, hfind⟩ := walk_deadEnd hq hend
    rw [hsame.hops] at hreach
    rw [hsame.edgesFrom, find?_unconditional hplain, List.head?_eq_none_iff] at hfind
    have hfirst := Relation.ReflTransGen.mono (fun a b hab => (hops_iff_firstHop hplain).mp hab) _ _ hreach
    rcases h entry (hsame.entryPoints ▸ hentry) last hfirst with hlast | hedges
    · exact hexit (hsame.exitPoints.symm ▸ hlast)
    · exact hedges hfind
  · cases hend

omit [Node M] in
theorem exists_route (hg : g.WellFormed) (hplain : g.Unconditional) {entry n : NodeId} (hentry : entry ∈ g.entryPoints)
    (hpresent : entry ∈ g.nodes) (h : Relation.ReflTransGen g.FirstHop entry n) :
    ∃ route, g.Route entry route ∧ route.getLast? = some n := by
  have hhops := Relation.ReflTransGen.mono (fun a b hab => (hops_iff_firstHop hplain).mpr hab) _ _ h
  obtain ⟨rest, hchain, hlast⟩ := List.exists_isChain_cons_of_relationReflTransGen hhops
  refine ⟨entry :: rest, ⟨hentry, rfl, hchain, ?_⟩, ?_⟩
  · exact present_of_chain (fun edge hedge => (hg.endpoints edge hedge).2) hpresent hchain
  · rw [List.getLast?_eq_some_getLast (List.cons_ne_nil entry rest), hlast]

/-- On an unconditional graph that passed validation no execution fails at a dead end exactly when
following the first edges from every entry point leads on to an exit point, or on for ever. -/
theorem never_dead_ends_iff (hg : g.Reachable) (hplain : g.Unconditional) {order : List NodeId} {fuel : Nat}
    (hvalid : g.validate order fuel = some (.returned (.ok ()))) : g.NeverDeadEnds ↔ g.LeadsOn := by
  refine ⟨fun h entry hentry n hreach => ?_, neverDeadEnds_of_leadsOn hplain⟩
  by_contra hend
  rw [not_or, not_not] at hend
  obtain ⟨hpresent, -⟩ := (validate_ok hvalid).2 entry hentry
  obtain ⟨route, hroute, hlast⟩ := exists_route hg.wellFormed hplain hentry hpresent hreach
  obtain ⟨g', hg', hsame, hq, packet, readings, -, -, hdead⟩ := exists_guided_walk hg.wellFormed hroute 0
  exact h Steering g' hg' hsame hq entry packet readings n (hdead n hlast hend.1 hend.2)

def detour : FlowGraph StubNode :=
  stubGraph [(.source, .passes), (.transformer, .passes), (.sink, .passes)] [(0, 1, .sequential), (0, 2, .sequential)]

theorem detour_reachable : detour.Reachable := stubGraph_reachable _ _

theorem detour_unconditional : detour.Unconditional := by
  have hnone : ∀ edge ∈ detour.edges, edge.condition.isNone = true := by decide
  exact fun edge hedge => Option.isNone_iff_eq_none.mp (hnone edge hedge)

theorem never_dead_ends_iff_detour : detour.NeverDeadEnds ↔ detour.LeadsOn := by
  have hvalid : detour.validate detour.nodeIds 3 = some (.returned (.ok ())) := by rfl
  exact never_dead_ends_iff detour_reachable detour_unconditional hvalid

theorem detour_dead_ends : detour.Reachable ∧ detour.Unconditional ∧
    detour.validate detour.nodeIds 3 = some (.returned (.ok ())) ∧ detour.QueuesEmpty ∧
    (detour.executeSequential ⟨0⟩ (stubPacket 7) [⟨0, 0⟩, ⟨0, 0⟩]).outcome = some (.returned (.error (deadEnd ⟨1⟩))) :=
  ⟨detour_reachable, detour_unconditional, rfl, queuesEmpty_of_entries (by decide), rfl⟩

end FlowGraph
end Nyarix
