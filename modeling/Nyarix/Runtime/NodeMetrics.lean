import Nyarix.Execution.NodeCounts
import Nyarix.Runtime.FlowMetrics

/-! What the metrics under the name of a module say after any run of the execution loop: the calls of its
nodes that have returned, whoever edited the graph in between. -/

namespace Nyarix
open Transition

namespace RunState
variable {M : Type} [Node M] {entry : NodeId} {name : String} {s s' : RunState (MeteredGraph M)}
  {l : LoopLabel (List Reading × Duration) (MeteredEdit M)}

def moduleCalls (entry : NodeId) (s : RunState (MeteredGraph M)) :
    LoopLabel (List Reading × Duration) (MeteredEdit M) → List (GraphNode M × Packet)
  | .own (.execute readings) =>
    match s.phase with
    | .lock _ packet => s.graph.graph.sequentialServes entry packet readings.1
    | _ => []
  | _ => []

def LeavesAlone (name : String) : LoopLabel (List Reading × Duration) (MeteredEdit M) → Prop
  | .outside (.edit (.record module metric _)) => Elsewhere name module metric
  | _ => True

theorem nodeCountsOf_execute {h h' : MeteredGraph M} {readings : List Reading × Duration} {packet : Packet}
    {outcome : Option Outcome} (he : (MeteredGraph.engine entry).execute readings h packet = (h', outcome)) :
    nodeCountsOf name h'.metrics =
      (h.graph.sequentialServes entry packet readings.1).foldl (NodeCounts.tally name) (nodeCountsOf name h.metrics) := by
  have hcounts := h.graph.nodeCountsOf_executeSequentialMetered name entry packet h.metrics readings.1 readings.2
  obtain ⟨rfl, rfl⟩ := Prod.mk.inj he
  rw [NodeCounts.foldl_tally]
  exact hcounts

theorem nodeCountsOf_step (halone : LeavesAlone name l) (hs : Step (MeteredGraph.engine entry) s l s') :
    nodeCountsOf name s'.graph.metrics = (s.moduleCalls entry l).foldl (NodeCounts.tally name) (nodeCountsOf name s.graph.metrics) := by
  cases hs with
  | initialized hp hm hi | failed hp hm hi | shutDown hp hm hi =>
    have hmetrics := congrArg (fun r => r.1.metrics) hi
    exact congrArg (nodeCountsOf name) hmetrics.symm
  | resumed | stopped | paused | received | closed | delivered | refused | drained | emptied | expiredDrain
  | expiredShutdown => rfl
  | unfinished hp hm he | executed hp hm he =>
    unfold moduleCalls
    rw [hp]
    exact nodeCountsOf_execute he
  | outside hd =>
    rcases disturb_graph hd with ⟨x, rfl, rfl⟩ | hgraph
    · cases x with
      | call => rfl
      | record module metric use => exact nodeCountsOf_record halone use s.graph.metrics
    · rw [hgraph]
      rfl

/-- In every state that a run of the loop reaches, the metrics under a name count the calls that have
returned from modules of that name. A call that panics counts nowhere; one that takes too long fails the
packet and is no error. -/
theorem node_metrics_tell_the_calls {g : MeteredGraph M} {r₀ : MetricRegistry} (hattached : g.metrics = some r₀)
    {source sink : Channel Packet} {pause : GraphPause} {ls : List (LoopLabel (List Reading × Duration) (MeteredEdit M))}
    (halone : ∀ l ∈ ls, LeavesAlone name l)
    (h : run (step (MeteredGraph.engine entry)) (init g source sink pause) ls = some s) :
    let calls := (outputs (step (MeteredGraph.engine entry)) (moduleCalls entry) (init g source sink pause) ls).filter
      (countedUnder name)
    ∃ r, s.graph.metrics = some r ∧
      (r.nodeCounts name).processCalls = (r₀.nodeCounts name).processCalls + .ofNat calls.length ∧
      (r.nodeCounts name).observations = (r₀.nodeCounts name).observations + calls.length ∧
      (r.nodeCounts name).errors = (r₀.nodeCounts name).errors + .ofNat (calls.countP failedCall) ∧
      (r.nodeCounts name).queueDepth = (calls.getLast?.map leftQueued).getD (r₀.nodeCounts name).queueDepth := by
  intro calls
  have hview := run_outputs (fun s : RunState (MeteredGraph M) => nodeCountsOf name s.graph.metrics)
    (fun _ _ _ hown hstep => nodeCountsOf_step hown (step_cases hstep))
    (along_of_forall fun l hl _ => halone l hl) h
  have hstart : nodeCountsOf name (init g source sink pause).graph.metrics = some (r₀.nodeCounts name) :=
    congrArg (nodeCountsOf name) hattached
  rw [NodeCounts.foldl_tally, hstart] at hview
  obtain ⟨r, hr, hcounts⟩ := Option.map_eq_some_iff.mp hview
  dsimp only at hcounts
  rw [NodeCounts.after_eq, List.countP_eq_length_filter] at hcounts
  refine ⟨r, hr, ?_⟩
  rw [hcounts]
  exact ⟨rfl, rfl, rfl, rfl⟩

theorem node_metrics_tell_the_calls_byte : ∃ s r,
    run (step (MeteredGraph.engine ⟨0⟩)) fragileState (fragileRun [1]) = some s ∧ s.graph.metrics = some r ∧
      (r.nodeCounts "fragile").processCalls = 1 := by
  have halone : ∀ l ∈ fragileRun [1], LeavesAlone "fragile" l := by
    simp [fragileRun, LeavesAlone]
  have hrun : ∃ s, run (step (MeteredGraph.engine ⟨0⟩)) fragileState (fragileRun [1]) = some s := ⟨_, rfl⟩
  obtain ⟨s, hs⟩ := hrun
  obtain ⟨r, hr, hcalls, -⟩ := node_metrics_tell_the_calls rfl halone hs
  exact ⟨s, r, hs, hr, hcalls.trans rfl⟩

end RunState
end Nyarix
