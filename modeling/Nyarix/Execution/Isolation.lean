import Nyarix.Execution.Frame
import Nyarix.Graph.Stub

/-! Which packets concurrent calls return. A branch processes whatever packet its node's queue
yields, so a call returns packets of other calls exactly as far as its branches take them. -/

namespace Nyarix
open Transition ForkJoin

def PreservesId (M : Type) [Node M] : Prop :=
  ∀ (m : M) (packet processed : Packet),
    (Node.process m packet).2 = .returned (.ok (some processed)) → processed.id = packet.id

def Pc.packets : Pc → List Packet
  | .start _ packet _ | .acquire _ packet | .lock _ packet | .send _ packet => [packet]
  | .join _ results => results
  | .done (.ok packets) => packets
  | .done _ | .relock _ | .recv _ | .joined | .dropped => []

def BranchStep.packets : BranchStep → List Packet
  | .finished (.ok packets) => packets
  | .finished _ => []
  | .goto _ packet | .fork _ packet => [packet]

section Receive
variable {M : Type} [Node M] {g g' : FlowGraph M}

theorem process_eq_some {node : GraphNode M} {packet processed : Packet}
    (h : (node.process packet).2 = .returned (.ok (some processed))) :
    (Node.process node.module.module packet).2 = .returned (.ok (some processed)) := by
  simp only [GraphNode.process, GraphNode.call, ArcNode.call] at h
  split_ifs at h
  · exact h
  · cases h

theorem processTimed_eq_some {node : GraphNode M} {packet processed : Packet} {elapsed : Duration}
    (h : (node.processTimed packet elapsed).2 = .returned (.ok (some processed))) :
    (node.process packet).2 = .returned (.ok (some processed)) := by
  unfold GraphNode.processTimed at h
  split at h
  · cases h
  · rename_i node' outcome hp
    split at h
    · cases h
    · split at h
      · cases h
      · simp only [Unwind.returned.injEq, Except.ok.injEq] at h
        rw [hp, h]

theorem runBranch_packets {current : NodeId} {packet : Packet} {next : List (EdgeType × NodeId)} :
    (runBranch current (.goOn packet next)).packets ⊆ [packet] := by
  unfold runBranch
  simp only
  split_ifs
  · split <;> simp [BranchStep.packets]
  · simp [BranchStep.packets]

theorem receive_ids (hid : PreservesId M) {current : NodeId} {elapsed : Duration} {step : BranchStep}
    (h : g.receive current elapsed = some (g', step)) : ∃ node packet queue,
      g.node current = some node ∧ node.queue.tryRecvPrioritized = some (packet, queue) ∧
      ∀ p ∈ step.packets, p.id = packet.id := by
  obtain ⟨node, packet, queue, hnode, hq, -, rfl⟩ := receive_eq_some h
  refine ⟨node, packet, queue, hnode, hq, fun p hp => ?_⟩
  generalize hr : ({ node with queue := queue }.processTimed packet elapsed).2 = r at hp
  match r, hr with
  | .panicked _, _ | .returned (.error _), _ | .returned (.ok none), _ =>
    simp [FlowGraph.branchStep, FlowGraph.walkStep, runBranch, BranchStep.packets] at hp
  | .returned (.ok (some processed)), hr =>
    have hpid := hid _ _ _ (process_eq_some (processTimed_eq_some hr))
    have hmem : p ∈ [processed] := by
      simp only [FlowGraph.branchStep, FlowGraph.walkStep] at hp
      split_ifs at hp
      · exact hp
      · exact runBranch_packets hp
    rw [List.mem_singleton.mp hmem, hpid]

end Receive

namespace World
variable {M : Type} [Node M]

def Carries (A : CallId → PacketId → Prop) (c : CallId) (pc : Pc) : Prop := ∀ p ∈ pc.packets, A c p.id

def Takes (A : CallId → PacketId → Prop) (w : World M) (l : Label) : Prop :=
  ∀ t current elapsed node packet queue, w.tasks[l.task]? = some t → l.action = .recv elapsed →
    t.pc = .recv current → w.graph.node current = some node →
    node.queue.tryRecvPrioritized = some (packet, queue) → A t.call packet.id

variable {A : CallId → PacketId → Prop} {g : FlowGraph M} {calls : List Call} {w w' : World M}
  {i : TaskId} {t : Task}

omit [Node M] in
theorem carries_nil {c : CallId} {pc : Pc} (h : pc.packets = []) : Carries A c pc := by
  intro p hp
  rw [h] at hp
  cases hp

omit [Node M] in
theorem Sound.call_of_mem_set (s : w.Sound g calls) (ht : w.tasks[i]? = some t) {set : List TaskId}
    {results : List Packet} (hpc : t.pc = .join set results) {c : TaskId} {child : Task} (hmem : c ∈ set)
    (hc : w.tasks[c]? = some child) : child.call = t.call := by
  have hjoining : t.job.phase = .joining set := by simp only [Task.job, hpc, Pc.phase]
  obtain ⟨-, -, hgroup⟩ := s.pool.awaited (pool_job ht) hjoining (pool_job hc) hmem
  exact hgroup

theorem Refused.packets {a : Action} {result : BranchResult} (h : w.Refused t a result) :
    (Pc.done result).packets = [] := by
  cases h <;> rfl

theorem carries_recv (hid : PreservesId M) (hw : w.All (Carries A)) {current : NodeId} {elapsed : Duration}
    (htake : ∀ node packet queue, w.graph.node current = some node →
      node.queue.tryRecvPrioritized = some (packet, queue) → A t.call packet.id)
    {graph : FlowGraph M} {step : BranchStep} (hr : w.graph.receive current elapsed = some (graph, step)) :
    ({ w with graph := graph, mutex := none }.proceed i t step).All (Carries A) := by
  obtain ⟨node, packet, queue, hnode, hq, hids⟩ := receive_ids hid hr
  have hw' : ({ w with graph := graph, mutex := none } : World M).All (Carries A) := hw
  have hstep : ∀ p ∈ step.packets, A t.call p.id := fun p hp =>
    hids p hp ▸ htake node packet queue hnode hq
  cases step with
  | finished result =>
    refine all_finish hw' fun p hp => hstep p ?_
    cases result <;> simp_all [Pc.packets, BranchStep.packets]
  | goto next packet => exact all_move hw' hstep
  | fork targets packet => exact all_fork hw' (carries_nil rfl) fun _ _ => hstep

theorem carries_step (hid : PreservesId M) (s : w.Sound g calls) (hw : w.All (Carries A))
    (ht : w.tasks[i]? = some t) {a : Action} (hl : w.Takes A ⟨i, a⟩) (hs : Step w i t a w') :
    w'.All (Carries A) := by
  have hold := hw t (List.mem_of_getElem? ht)
  cases step_cases hs with
  | entered hpc =>
    rw [hpc] at hold
    exact all_move hw hold
  | acquired hpc =>
    rw [hpc] at hold
    exact all_acquire hw hold
  | @admitted current packet now admitted hpc hm hadmission =>
    rw [hpc] at hold
    obtain ⟨-, -, -, rfl⟩ := FlowGraph.admission_eq_ok hadmission
    refine all_move hw fun p hp => ?_
    rw [List.mem_singleton.mp hp, Packet.recordHop_id]
    exact hold packet List.mem_cons_self
  | sent => exact all_move (w := { w with graph := _ }) hw (carries_nil rfl)
  | relocked => exact all_move (w := { w with mutex := _ }) hw (carries_nil rfl)
  | @received current elapsed graph step hpc hr =>
    exact carries_recv hid hw (fun node packet queue => hl t current elapsed node packet queue ht rfl hpc) hr
  | refused hr => exact all_finish hw (carries_nil hr.packets)
  | joined hpc hc hd hmem =>
    -- the joined branch worked for the same call, so its packets may be returned by it
    have hchild := hw _ (List.mem_of_getElem? hc)
    rw [s.call_of_mem_set ht hpc hmem hc, hd] at hchild
    rw [hpc] at hold
    refine all_join_ok hw (carries_nil rfl) fun p hp => ?_
    rcases List.mem_append.mp hp with hp | hp
    · exact hold p hp
    · exact hchild p hp
  | failed => exact all_join_fail hw (carries_nil rfl) (carries_nil rfl)
  | finished hpc =>
    rw [hpc] at hold
    exact all_finish hw hold
  | dropped => exact all_drop hw (carries_nil rfl)

def Queues (B : PacketId → Prop) (w : World M) : Prop :=
  ∀ n node, w.graph.node n = some node → ∀ p ∈ node.queue.packets, B p.id

omit [Node M] in
theorem Queues.modifyNode {B : PacketId → Prop} (hq : w.Queues B) {n : NodeId} {node : GraphNode M}
    (hnode : w.graph.node n = some node) (f : GraphNode M → GraphNode M)
    (hf : ∀ p ∈ (f node).queue.packets, B p.id) :
    ∀ m node', (w.graph.modifyNode n f).node m = some node' → ∀ p ∈ node'.queue.packets, B p.id := by
  intro m node' hm p hp
  rw [FlowGraph.node_modifyNode] at hm
  split_ifs at hm with hmn
  · rw [hmn, hnode, Option.map_some, Option.some.injEq] at hm
    subst hm
    exact hf p hp
  · exact hq m node' hm p hp

theorem queues_step {B : PacketId → Prop} (hq : w.Queues B) (hw : w.All (Carries fun _ => B))
    (ht : w.tasks[i]? = some t) {a : Action} (hs : Step w i t a w') : w'.Queues B := by
  rcases step_graph hs with hg | ⟨n, node, packet, queue, hpc, hnode, hsend, hg⟩ | ⟨n, elapsed, step, -, hr⟩
  · unfold Queues
    rw [hg]
    exact hq
  · unfold Queues
    rw [hg]
    refine hq.modifyNode hnode _ fun p hp => ?_
    rcases List.mem_cons.mp ((NodeQueue.trySend_eq_some hsend).1.mem_iff.mp hp) with rfl | hp
    · have hold := hw t (List.mem_of_getElem? ht)
      rw [hpc] at hold
      exact hold p List.mem_cons_self
    · exact hq n node hnode p hp
  · obtain ⟨node, packet, queue, hnode, hrecv, hg, -⟩ := receive_eq_some hr
    unfold Queues
    rw [hg]
    refine hq.modifyNode hnode _ fun p hp => ?_
    rw [GraphNode.processTimed_queue] at hp
    refine hq n node hnode p ?_
    rw [NodeQueue.tryRecvPrioritized_eq_some hrecv]
    exact List.mem_cons_of_mem _ hp

omit [Node M] in
theorem takes_of_queues {B : PacketId → Prop} (hq : w.Queues B) (l : Label) : w.Takes (fun _ => B) l := by
  intro t current elapsed node packet queue _ _ _ hnode hrecv
  refine hq current node hnode packet ?_
  rw [NodeQueue.tryRecvPrioritized_eq_some hrecv]
  exact List.mem_cons_self

omit [Node M] in
theorem carries_init (h : ∀ c call, calls[c]? = some call → A c call.packet.id) :
    (init g calls).All (Carries A) := by
  intro t ht p hp
  obtain ⟨k, hk⟩ := List.getElem?_of_mem ht
  simp only [init, List.getElem?_mapIdx, Option.map_eq_some_iff] at hk
  obtain ⟨call, hcall, rfl⟩ := hk
  rw [List.mem_singleton.mp hp]
  exact h k call hcall

omit [Node M] in
theorem returned_carries (s : w.Sound g calls) (hw : w.All (Carries A)) {c : CallId} {packets : List Packet}
    (h : w.returned c = some (.ok packets)) : ∀ p ∈ packets, A c p.id := by
  unfold returned at h
  split at h
  · rename_i call permit aborted result ht
    obtain rfl := Option.some.inj h
    obtain rfl : call = c := (s.pool.root _ _ (pool_job ht) rfl).1
    exact hw _ (List.mem_of_getElem? ht)
  · cases h

def TakesOwn (c : CallId) (call : Call) : World M → Label → Prop :=
  Takes fun d id => d = c → id = call.packet.id

/-- A call returns packets passed to some call; and only its own, unless one of its branches
takes another packet from a queue. -/
theorem execute_parallel_isolation (hid : PreservesId M) (hq : g.QueuesEmpty) {ls : List Label}
    (h : run step (init g calls) ls = some w) {c : CallId} {call : Call} (hc : calls[c]? = some call)
    {packets : List Packet} (hret : w.returned c = some (.ok packets)) :
    (∀ p ∈ packets, ∃ other ∈ calls, p.id = other.packet.id) ∧
      (Along step (TakesOwn c call) (init g calls) ls → ∀ p ∈ packets, p.id = call.packet.id) := by
  refine ⟨?_, fun hown => ?_⟩
  · have hinv := run_invariant (P := fun w : World M => w.Sound g calls ∧
      w.All (Carries fun _ id => ∃ other ∈ calls, id = other.packet.id) ∧
      w.Queues fun id => ∃ other ∈ calls, id = other.packet.id) ?_ ?_ h
    · exact returned_carries hinv.1 hinv.2.1 hret
    · rintro w l w' ⟨s, hw, hqs⟩ hstep
      obtain ⟨t, ht, hs⟩ := step_iff.mp hstep
      exact ⟨s.step ht hs, carries_step hid s hw ht (takes_of_queues hqs _) hs, queues_step hqs hw ht hs⟩
    · refine ⟨sound_init g calls, carries_init fun c call hc => ⟨call, List.mem_of_getElem? hc, rfl⟩, ?_⟩
      intro n node hn p hp
      rw [hq n node hn] at hp
      cases hp
  · have hinv := run_preserves (P := fun w : World M => w.Sound g calls ∧
      w.All (Carries fun d id => d = c → id = call.packet.id)) ?_ ?_ hown h
    · exact fun p hp => returned_carries hinv.1 hinv.2 hret p hp rfl
    · rintro w l w' ⟨s, hw⟩ hl hstep
      obtain ⟨t, ht, hs⟩ := step_iff.mp hstep
      exact ⟨s.step ht hs, carries_step hid s hw ht hl hs⟩
    · refine ⟨sound_init g calls, carries_init fun d other hd hdc => ?_⟩
      subst hdc
      rw [Option.some.inj (hc.symm.trans hd)]

theorem preservesId_stubNode : PreservesId StubNode := by
  intro m packet processed h
  simp only [Node.process, StubNode.process] at h
  split at h <;> cases h
  rfl

def relayCalls : List Call := [⟨⟨0⟩, stubPacket 7, 1⟩, ⟨⟨0⟩, stubPacket 8, 1⟩]

/-- Both calls queue their packets at the source, and the second call receives there first. -/
def overtakingRun : List Label :=
  [⟨0, .enter⟩, ⟨0, .admission 0⟩, ⟨0, .send⟩,
    ⟨1, .enter⟩, ⟨1, .admission 0⟩, ⟨1, .send⟩, ⟨1, .relock⟩, ⟨1, .recv 0⟩,
    ⟨1, .admission 0⟩, ⟨1, .send⟩, ⟨1, .relock⟩, ⟨1, .recv 0⟩]

theorem execute_parallel_isolation_relay : ∃ w, run step (init relay relayCalls) overtakingRun = some w ∧
    ((∀ p ∈ [stubPacket 7], ∃ other ∈ relayCalls, p.id = other.packet.id) ∧
      (Along step (TakesOwn 1 ⟨⟨0⟩, stubPacket 8, 1⟩) (init relay relayCalls) overtakingRun →
        ∀ p ∈ [stubPacket 7], p.id = (stubPacket 8).id)) :=
  ⟨_, rfl, execute_parallel_isolation preservesId_stubNode (FlowGraph.queuesEmpty_of_entries (by decide))
    rfl (c := 1) rfl rfl⟩

theorem relay_returns_other_packet : PreservesId StubNode ∧ relay.QueuesEmpty ∧
    (relayCalls.map (·.packet.id)).Nodup ∧ ∃ w packets,
      run step (init relay relayCalls) overtakingRun = some w ∧ w.returned 1 = some (.ok packets) ∧
      ∃ p ∈ packets, p.id ≠ (stubPacket 8).id :=
  ⟨preservesId_stubNode, FlowGraph.queuesEmpty_of_entries (by decide), by decide, _, [stubPacket 7], rfl, rfl,
    stubPacket 7, List.mem_cons_self, by decide⟩

end World
end Nyarix
