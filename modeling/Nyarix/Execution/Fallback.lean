import Nyarix.Execution.Frame
import Nyarix.Execution.Reference
import Nyarix.Execution.Routes
import Nyarix.Graph.Stub

/-! The edges that packets leave nodes along. Both engines take the first edge that accepts the packet, so
a fallback edge is a last resort as far as the order of the edges makes it one. -/

namespace Nyarix
open Transition

section FirstAccepted
variable {α : Type*} {l : List α} {a : α} {accepts : α → Bool} {isLast : α → Prop}

/-- Whenever a choice stands behind a last resort, both acceptable, another stands before it. -/
def LastResortsYield (accepts : α → Bool) (isLast : α → Prop) (l : List α) : Prop :=
  ∀ before b after, l = before ++ b :: after → accepts b → isLast b → (∃ c ∈ after, accepts c ∧ ¬ isLast c) →
    ∃ c ∈ before, accepts c ∧ ¬ isLast c

theorem find?_last_iff (isLast : α → Prop) (h : l.find? accepts = some a) :
    (isLast a → ∀ b ∈ l, accepts b → isLast b) ↔ LastResortsYield accepts isLast l := by
  constructor
  · rintro hlast before b after rfl hb hbLast ⟨c, hc, haccepts, hother⟩
    have ha : ¬ isLast a := fun ha =>
      hother (hlast ha c (List.mem_append_right _ (List.mem_cons_of_mem b hc)) haccepts)
    -- were the choice not before `b`, it would be `b`
    rw [List.find?_append] at h
    cases hbefore : before.find? accepts with
    | none =>
      rw [hbefore, Option.none_or, List.find?_cons_of_pos hb] at h
      exact absurd (Option.some.inj h ▸ hbLast) ha
    | some first =>
      rw [hbefore, Option.some_or] at h
      obtain rfl := Option.some.inj h
      exact ⟨first, List.mem_of_find?_eq_some hbefore, List.find?_some hbefore, ha⟩
  · intro hyield ha b hb haccepts
    obtain ⟨hfirst, before, after, rfl, hbefore⟩ := List.find?_eq_some_iff_append.mp h
    have hnone : ∀ c ∈ before, ¬ accepts c := fun c hc => by simpa using hbefore c hc
    by_contra hother
    rcases List.mem_append.mp hb with hb | hb
    · exact hnone b hb haccepts
    · rcases List.mem_cons.mp hb with rfl | hb
      · exact hother ha
      · obtain ⟨c, hc, hcAccepts, -⟩ := hyield before a after rfl hfirst ha ⟨b, hb, haccepts, hother⟩
        exact hnone c hc hcAccepts

end FirstAccepted

structure Departure where
  node : NodeId
  packet : Packet
  edge : Edge

variable {M : Type}

namespace FlowGraph

def departure (g : FlowGraph M) (current : NodeId) (packet : Packet) : Option Departure :=
  ((g.edgesFrom current).find? (·.accepts packet)).map fun edge => ⟨current, packet, edge⟩

def LastResort (g : FlowGraph M) (d : Departure) : Prop :=
  d.edge.edgeType = .fallback → ∀ edge ∈ g.edgesFrom d.node, edge.accepts d.packet → edge.edgeType = .fallback

instance (g : FlowGraph M) (d : Departure) : Decidable (g.LastResort d) :=
  inferInstanceAs (Decidable (_ → ∀ edge ∈ _, _ → _))

def FallbacksYield (g : FlowGraph M) (n : NodeId) (packet : Packet) : Prop :=
  LastResortsYield (·.accepts packet) (·.edgeType = .fallback) (g.edgesFrom n)

variable {g g' : FlowGraph M} {d : Departure}

theorem departure_eq_some {current : NodeId} {packet : Packet} (h : g.departure current packet = some d) :
    d.node = current ∧ d.packet = packet ∧ (g.edgesFrom current).find? (·.accepts packet) = some d.edge := by
  obtain ⟨edge, hfind, rfl⟩ := Option.map_eq_some_iff.mp h
  exact ⟨rfl, rfl, hfind⟩

theorem lastResort_iff (h : g.departure d.node d.packet = some d) : g.LastResort d ↔ g.FallbacksYield d.node d.packet :=
  find?_last_iff (fun edge : Edge => edge.edgeType = .fallback) (departure_eq_some h).2.2

theorem SameTopology.departure (h : g.SameTopology g') : g'.departure = g.departure := by
  funext current packet
  rw [FlowGraph.departure, FlowGraph.departure, h.edgesFrom]

variable [Node M]

def departures : List Reading → FlowGraph M → NodeId → Packet → List Departure
  | [], _, _, _ => []
  | reading :: readings, g, current, packet =>
    match g.visit current packet reading with
    | (_, _, .stop _) => []
    | (g, _, .next next packet) => (g.departure current packet).toList ++ departures readings g next packet

def sequentialDepartures (g : FlowGraph M) (entry : NodeId) (packet : Packet) (readings : List Reading) : List Departure :=
  if entry ∈ g.entryPoints then departures readings g entry packet else []

theorem departures_eq {readings : List Reading} {current : NodeId} {packet : Packet}
    (h : d ∈ departures readings g current packet) : g.departure d.node d.packet = some d := by
  induction readings generalizing g current packet with
  | nil => exact absurd h List.not_mem_nil
  | cons reading readings ih =>
    have htopology := (g.visit_route current packet reading).1
    rw [departures] at h
    rcases hvisit : g.visit current packet reading with ⟨g', calls, outcome | ⟨next, packet'⟩⟩
    · rw [hvisit] at h
      exact absurd h List.not_mem_nil
    · rw [hvisit] at h htopology
      rw [← htopology.departure]
      rcases List.mem_append.mp h with h | h
      · have hd := Option.mem_toList.mp h
        obtain ⟨hnode, hpacket, -⟩ := departure_eq_some hd
        rw [hnode, hpacket]
        exact hd
      · exact ih h

end FlowGraph

variable [Node M] {g : FlowGraph M} {d : Departure}

namespace World

def departure (w : World M) (l : Label) : Option Departure :=
  match w.tasks[l.task]?.map Task.pc, l.action with
  | some (.recv current), .recv elapsed =>
    match w.graph.receive current elapsed with
    | some (graph, .goto _ packet) => graph.departure current packet
    | _ => none
  | _, _ => none

def departures : World M → List Label → List Departure
  | _, [] => []
  | w, l :: ls =>
    match w.step l with
    | none => []
    | some w' => (w.departure l).toList ++ departures w' ls

variable {w w' : World M} {i : TaskId} {t : Task}

theorem sameTopology_receive {graph graph' : FlowGraph M} {current : NodeId} {elapsed : Duration}
    {step : BranchStep} (h : graph.receive current elapsed = some (graph', step)) : graph.SameTopology graph' := by
  obtain ⟨node, packet, queue, -, -, rfl, -⟩ := receive_eq_some h
  exact FlowGraph.sameTopology_modifyNode _ _ _

theorem sameTopology_step {l : Label} (h : w.step l = some w') : w.graph.SameTopology w'.graph := by
  obtain ⟨t, -, hstep⟩ := step_iff.mp h
  generalize l.task = i at hstep
  generalize l.action = a at hstep
  cases step_cases hstep with
  | sent => exact FlowGraph.sameTopology_modifyNode _ _ _
  | @received current elapsed graph step hpc hr =>
    have hgraph := sameTopology_receive hr
    cases step <;> exact hgraph
  | _ => exact .refl _

theorem departure_eq {l : Label} (h : w.departure l = some d) : w.graph.departure d.node d.packet = some d := by
  unfold departure at h
  split at h
  · split at h
    · rename_i current elapsed _ _ _ graph next packet hr
      rw [← (sameTopology_receive hr).departure]
      obtain ⟨hnode, hpacket, -⟩ := FlowGraph.departure_eq_some h
      rw [hnode, hpacket]
      exact h
    · cases h
  · cases h

theorem departures_eq {ls : List Label} (h : d ∈ w.departures ls) : w.graph.departure d.node d.packet = some d := by
  induction ls generalizing w with
  | nil => exact absurd h List.not_mem_nil
  | cons l ls ih =>
    rw [departures] at h
    cases hstep : w.step l with
    | none =>
      rw [hstep] at h
      exact absurd h List.not_mem_nil
    | some w' =>
      rw [hstep] at h
      rcases List.mem_append.mp h with h | h
      · exact departure_eq (Option.mem_toList.mp h)
      · rw [← (sameTopology_step hstep).departure]
        exact ih h

end World

namespace FlowGraph

theorem sequentialDepartures_eq {entry : NodeId} {packet : Packet} {readings : List Reading}
    (h : d ∈ g.sequentialDepartures entry packet readings) : g.departure d.node d.packet = some d := by
  unfold sequentialDepartures at h
  split_ifs at h
  · exact departures_eq h
  · exact absurd h List.not_mem_nil

def fallbackFirst : FlowGraph StubNode :=
  stubGraph [(.source, .passes), (.sink, .passes), (.sink, .passes)] [(0, 1, .fallback), (0, 2, .sequential)]

end FlowGraph
end Nyarix
