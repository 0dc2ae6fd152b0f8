import Nyarix.Execution.Frame

/-! The packets in flight: a branch that has queued a packet and not yet received one is
matched by a packet in that node's queue, until it is aborted. -/

namespace Nyarix
open Transition

/-- Between its send to node `n` and its receive there. -/
def Pc.awaits (n : NodeId) : Pc → Nat
  | .relock m | .recv m => if m = n then 1 else 0
  | _ => 0

section Balance
variable {M : Type} [Node M] {g g' : FlowGraph M} {calls : List Call} {w w' : World M} {i : TaskId} {t : Task}

def FlowGraph.queued (g : FlowGraph M) (n : NodeId) : Nat := ((g.node n).map (·.queue.len)).getD 0

def World.inFlight (w : World M) (n : NodeId) : Nat := w.total (Pc.awaits n)

/-- The packets a step leaves behind: an aborted branch does not take its packet along. -/
def Task.leaves (t : Task) (n : NodeId) : Action → Nat
  | .abort => t.pc.awaits n
  | _ => 0

/-- The packets a branch leaves behind because their node is gone when it comes to receive. -/
def Task.misses (t : Task) (g : FlowGraph M) (n : NodeId) : Action → Nat
  | .relock => if (g.node n).isSome then 0 else t.pc.awaits n
  | _ => 0

theorem receive_queued {current : NodeId} {elapsed : Duration} {step : BranchStep}
    (h : g.receive current elapsed = some (g', step)) (n : NodeId) :
    g'.queued n + (if current = n then 1 else 0) = g.queued n := by
  obtain ⟨node, packet, queue, hnode, hq, rfl, -⟩ := receive_eq_some h
  have hlen := congrArg List.length (NodeQueue.tryRecvPrioritized_eq_some hq)
  rw [List.length_cons, ← NodeQueue.len_eq, ← NodeQueue.len_eq] at hlen
  simp only [FlowGraph.queued, FlowGraph.node_modifyNode]
  by_cases hn : n = current
  · subst hn
    simp [hnode, hlen]
  · simp [hn, Ne.symm hn]

omit [Node M] in
theorem trySend_queued {current : NodeId} {node : GraphNode M} {packet : Packet} {queue : NodeQueue}
    (hnode : g.node current = some node) (hq : node.queue.trySend packet = some queue) (n : NodeId) :
    (g.modifyNode current ({ · with queue := queue })).queued n =
      g.queued n + if current = n then 1 else 0 := by
  have hlen := (NodeQueue.trySend_eq_some hq).1.length_eq
  rw [List.length_cons, ← NodeQueue.len_eq, ← NodeQueue.len_eq] at hlen
  simp only [FlowGraph.queued, FlowGraph.node_modifyNode]
  by_cases hn : n = current
  · subst hn
    simp [hnode, hlen]
  · simp [hn, Ne.symm hn]

omit [Node M] in
theorem Task.misses_eq_zero {current : NodeId} {node : GraphNode M} (hpc : t.pc = .relock current)
    (hnode : g.node current = some node) (n : NodeId) : t.misses g n .relock = 0 := by
  rw [Task.misses, hpc, Pc.awaits]
  by_cases hn : current = n
  · rw [← hn, hnode]
    rfl
  · rw [if_neg hn, ite_self]

theorem World.Refused.misses {a : Action} {result : BranchResult} (h : w.Refused t a result) (n : NodeId) :
    t.leaves n a = 0 ∧ t.misses w.graph n a = t.pc.awaits n := by
  cases h with
  | entry hpc | semaphore hpc | admission hpc | closed hpc =>
    rw [hpc]
    exact ⟨rfl, rfl⟩
  | @missing current hpc hnode =>
    refine ⟨rfl, ?_⟩
    rw [Task.misses, hpc, Pc.awaits]
    by_cases hn : current = n
    · rw [← hn, hnode]
      rfl
    · rw [if_neg hn, ite_self]

omit [Node M] in
theorem World.balance_send (h : w.tasks[i]? = some t) {current : NodeId} {packet : Packet}
    (hpc : t.pc = .send current packet) {node : GraphNode M} (hnode : w.graph.node current = some node)
    {queue : NodeQueue} (hq : node.queue.trySend packet = some queue) (n : NodeId) :
    (w.graph.modifyNode current ({ · with queue := queue })).queued n + w.total (Pc.awaits n) =
      w.graph.queued n + ({ w with graph := w.graph.modifyNode current ({ · with queue := queue }) }.move i t
        (.relock current)).total (Pc.awaits n) := by
  -- one packet more in the queue, and one branch more that waits for it
  have hqueued := trySend_queued hnode hq n
  have htotal := total_move (Pc.awaits n)
    { w with graph := w.graph.modifyNode current ({ · with queue := queue }) } h (.relock current)
  rw [hpc] at htotal
  simp only [Pc.awaits, move, total] at hqueued htotal ⊢
  omega

theorem World.balance_recv (h : w.tasks[i]? = some t) {current : NodeId} (hpc : t.pc = .recv current)
    {elapsed : Duration} {graph : FlowGraph M} {step : BranchStep}
    (hr : w.graph.receive current elapsed = some (graph, step)) (n : NodeId) :
    graph.queued n + w.total (Pc.awaits n) = w.graph.queued n +
      ({ w with graph := graph, mutex := none }.proceed i t step).total (Pc.awaits n) := by
  have hqueued := receive_queued hr n
  -- wherever the branch goes on, it does not wait there for a packet
  have htotal : ({ w with graph := graph, mutex := none }.proceed i t step).total (Pc.awaits n) +
      t.pc.awaits n = w.total (Pc.awaits n) := by
    cases step with
    | finished result => exact total_finish (Pc.awaits n) { w with graph := _, mutex := _ } h result
    | goto next packet => exact total_move (Pc.awaits n) { w with graph := _, mutex := _ } h _
    | fork targets packet =>
      have hnew : Tally.sumOver (fun target => (Pc.acquire target packet).awaits n) targets = 0 :=
        Tally.sumOver_eq_zero fun _ _ => rfl
      have := total_fork (Pc.awaits n) { w with graph := graph, mutex := none } h targets packet
      rwa [hnew] at this
  rw [hpc, Pc.awaits] at htotal
  omega

/-- A step moves as many packets into or out of a node's queue as it moves branches into or
out of their wait there, but for the packets left behind. -/
theorem World.balance_misses (h : w.tasks[i]? = some t) {a : Action} (hs : Step w i t a w') (n : NodeId) :
    w'.graph.queued n + w.inFlight n =
      w.graph.queued n + w'.inFlight n + t.leaves n a + t.misses w.graph n a := by
  -- a branch that joins is not done, so it joins another one
  have hother : ∀ {c : TaskId} {child : Task} {set : List TaskId} {results : List Packet} {result : BranchResult},
      t.pc = .join set results → w.tasks[c]? = some child → child.pc = .done result → c ≠ i := by
    rintro c child set results result hpc hc hd rfl
    rw [Option.some.inj (hc.symm.trans h), hpc] at hd
    cases hd
  unfold inFlight
  cases step_cases hs with
  | @entered entry packet permits hpc =>
    have htotal := total_move (Pc.awaits n) w h (.lock entry packet)
    rw [hpc] at htotal
    exact congrArg (_ + ·) htotal.symm
  | @acquired target packet hpc =>
    have htotal := total_acquire (Pc.awaits n) w h target packet
    rw [hpc] at htotal
    exact congrArg (_ + ·) htotal.symm
  | @admitted current packet now admitted hpc =>
    have htotal := total_move (Pc.awaits n) w h (.send current admitted)
    rw [hpc] at htotal
    exact congrArg (_ + ·) htotal.symm
  | sent hpc hnode hq => exact balance_send h hpc hnode hq n
  -- the branch still waits where it waited: it has the lock now, and its node is there
  | @relocked current node hpc hm hnode =>
    have htotal := total_move (Pc.awaits n) { w with mutex := some i } h (.recv current)
    rw [hpc] at htotal
    rw [Task.misses_eq_zero hpc hnode]
    exact congrArg (_ + ·) (Nat.add_right_cancel htotal).symm
  | received hpc hr =>
    rw [proceed_graph]
    exact balance_recv h hpc hr n
  | @refused _ result hr =>
    have htotal := total_finish (Pc.awaits n) w h result
    obtain ⟨hleaves, hmisses⟩ := hr.misses n
    rw [hleaves, hmisses, Nat.add_zero, Nat.add_assoc]
    exact congrArg (_ + ·) htotal.symm
  | @joined set results c child joinErr packets hpc hc hd =>
    have htotal := total_join_ok (Pc.awaits n) w h hc (hother hpc hc hd) set results packets joinErr
    rw [hpc, hd] at htotal
    exact congrArg (_ + ·) htotal.symm
  | @failed set results c child joinErr result e hpc hc hd =>
    have htotal := total_join_fail (Pc.awaits n) w h hc (hother hpc hc hd) set (.err e)
    rw [hpc, hd] at htotal
    exact congrArg (_ + ·) htotal.symm
  | @finished results hpc =>
    have htotal := total_finish (Pc.awaits n) w h (.ok results)
    rw [hpc] at htotal
    exact congrArg (_ + ·) htotal.symm
  | dropped =>
    have htotal := total_drop (Pc.awaits n) w h
    simp only [Pc.awaits, Task.leaves, Task.misses, drop] at htotal ⊢
    omega

theorem World.balance (s : w.Sound g calls) (h : w.tasks[i]? = some t) {a : Action} (hs : Step w i t a w') (n : NodeId) :
    w'.graph.queued n + w.inFlight n = w.graph.queued n + w'.inFlight n + t.leaves n a := by
  have hmisses : t.misses w.graph n a = 0 := by
    unfold Task.misses
    split
    · cases hs with
      | @relock current hpc hm =>
        obtain ⟨node, hnode⟩ := s.node h (n := current) (by rw [hpc]; rfl)
        exact Task.misses_eq_zero hpc hnode n
    · rfl
  have hb := balance_misses h hs n
  rwa [hmisses, add_zero] at hb

omit [Node M] in
theorem FlowGraph.queuesEmpty_iff : g.QueuesEmpty ↔ ∀ n, g.queued n = 0 := by
  constructor
  · intro h n
    unfold queued
    cases hn : g.node n with
    | none => rfl
    | some node => rw [Option.map_some, Option.getD_some, NodeQueue.len_eq, h n node hn, List.length_nil]
  · intro h n node hn
    have := h n
    rw [queued, hn, Option.map_some, Option.getD_some, NodeQueue.len_eq] at this
    exact List.length_eq_zero_iff.mp this

/-- Every branch of every call has finished, or was aborted and dropped. -/
def World.Settled (w : World M) : Prop := ∀ t ∈ w.tasks, t.pc.live = false

omit [Node M] in
theorem World.Settled.inFlight (h : w.Settled) (n : NodeId) : w.inFlight n = 0 :=
  Tally.sumOver_eq_zero fun t ht => by
    have := h t ht
    cases hp : t.pc <;> simp_all [Pc.live, Pc.awaits]

omit [Node M] in
theorem World.inFlight_init (g : FlowGraph M) (calls : List Call) (n : NodeId) :
    (init g calls).inFlight n = 0 := by
  refine Tally.sumOver_eq_zero fun t ht => ?_
  obtain ⟨k, hk⟩ := List.getElem?_of_mem ht
  simp only [init, List.getElem?_mapIdx, Option.map_eq_some_iff] at hk
  obtain ⟨call, -, rfl⟩ := hk
  rfl

/-- Whoever is about to receive finds at least one packet in the queue. -/
def World.Backed (w : World M) : Prop := ∀ n, w.inFlight n ≤ w.graph.queued n

theorem World.backed_step (s : w.Sound g calls) (hw : w.Backed) (h : w.tasks[i]? = some t) {a : Action}
    (hs : Step w i t a w') : w'.Backed := by
  intro n
  have := balance s h hs n
  have := hw n
  omega

theorem World.run_backed {ls : List Label} (h : run step (init g calls) ls = some w) : w.Backed := by
  refine (run_invariant (P := fun w : World M => w.Sound g calls ∧ w.Backed) ?_ ?_ h).2
  · rintro w l w' ⟨s, hw⟩ hstep
    obtain ⟨t, ht, hs⟩ := step_iff.mp hstep
    exact ⟨s.step ht hs, backed_step s hw ht hs⟩
  · exact ⟨sound_init g calls, fun n => by rw [inFlight_init]; exact Nat.zero_le _⟩

/-- Every queued packet belongs to a branch that will receive, and the other way round. -/
def World.Matched (w : World M) : Prop := ∀ n, w.graph.queued n = w.inFlight n

theorem World.matched_step (s : w.Sound g calls) (hw : w.Matched) (h : w.tasks[i]? = some t) {a : Action}
    (hs : Step w i t a w') (hleaves : ∀ n, t.leaves n a = 0) : w'.Matched := by
  intro n
  have := balance s h hs n
  have := hw n
  have := hleaves n
  omega

omit [Node M] in
theorem World.matched_init (hq : g.QueuesEmpty) : (init g calls).Matched := fun n => by
  rw [inFlight_init]
  exact FlowGraph.queuesEmpty_iff.mp hq n

end Balance
end Nyarix
