import Nyarix.Execution.Metered
import Nyarix.Lib.Framing

/-! What the metrics under the name of a module count: the calls of its nodes that return. -/

namespace Nyarix

def nodeMetrics : List String := ["process_calls_total", "process_duration_us", "queue_depth", "errors_total"]

structure NodeCounts where
  processCalls : UInt64
  observations : Nat
  queueDepth : Int64
  errors : UInt64

def NodeCounts.returned (c : NodeCounts) (queued : Nat) (succeeded : Bool) : NodeCounts where
  processCalls := c.processCalls + 1
  observations := c.observations + 1
  queueDepth := .ofNat (min queued i64Max)
  errors := if succeeded then c.errors else c.errors + 1

def MetricRegistry.nodeCounts (r : MetricRegistry) (name : String) : NodeCounts where
  processCalls := ((r.getCounter name "process_calls_total").getD .default).value
  observations := ((r.getHistogram name "process_duration_us").getD (.new processDurationBucketsUs)).count
  queueDepth := ((r.getGauge name "queue_depth").getD .default).value
  errors := ((r.getCounter name "errors_total").getD .default).value

theorem metricName_undotted {module name module' name' : String} (h : '.' ∉ name.toList) (h' : '.' ∉ name'.toList) :
    metricName module name = metricName module' name' ↔ module = module' ∧ name = name' := by
  have hreverse : ∀ module name : String, (module.toList ++ '.' :: name.toList).reverse =
      name.toList.reverse ++ '.' :: module.toList.reverse := by
    intro module name
    rw [List.reverse_append, List.reverse_cons, List.append_assoc, List.singleton_append]
  rw [← String.toList_inj, metricName_toList, metricName_toList, List.append_right_inj, ← List.reverse_inj, hreverse,
    hreverse, Framing.mark_inj (mt List.mem_reverse.mp h) (mt List.mem_reverse.mp h'),
    List.reverse_inj, List.reverse_inj, String.toList_inj, String.toList_inj, and_comm]

theorem nodeMetrics_undotted : ∀ name ∈ nodeMetrics, '.' ∉ name.toList := by decide

def Elsewhere (name module metric : String) : Prop := ∀ own ∈ nodeMetrics, metricName name own ≠ metricName module metric

theorem elsewhere_of_ne {name module metric : String} (hmetric : '.' ∉ metric.toList)
    (h : module ≠ name ∨ metric ∉ nodeMetrics) : Elsewhere name module metric := by
  intro own hown heq
  obtain ⟨rfl, rfl⟩ := (metricName_undotted (nodeMetrics_undotted own hown) hmetric).mp heq
  exact h.elim (fun hne => hne rfl) fun hnot => hnot hown

namespace MetricRegistry
variable (r : MetricRegistry) {name : String}

theorem nodeCounts_record {module metric : String} (h : Elsewhere name module metric) (use : MetricUse) :
    (r.record module metric use).nodeCounts name = r.nodeCounts name := by
  have hcalls := h "process_calls_total" (by decide)
  have hdurations := h "process_duration_us" (by decide)
  have hdepth := h "queue_depth" (by decide)
  have herrors := h "errors_total" (by decide)
  cases use with
  | increment delta =>
    unfold record nodeCounts
    rw [getCounter_counter, if_neg hcalls, getCounter_counter, if_neg herrors]
    rfl
  | set value | add value =>
    unfold record nodeCounts
    rw [getGauge_gauge, if_neg hdepth]
    rfl
  | observe bounds value =>
    unfold record nodeCounts
    rw [getHistogram_histogram, if_neg hdurations]
    rfl

theorem nodeCounts_processCalls (name : String) :
    (r.counter name "process_calls_total" (·.increment 1)).nodeCounts name =
      { r.nodeCounts name with processCalls := (r.nodeCounts name).processCalls + 1 } := by
  have herrors : metricName name "errors_total" ≠ metricName name "process_calls_total" := by
    rw [Ne, metricName_undotted (by decide) (by decide)]
    exact fun h => absurd h.2 (by decide)
  unfold nodeCounts
  rw [getCounter_counter, if_pos rfl, getCounter_counter, if_neg herrors]
  rfl

theorem nodeCounts_processDuration (name : String) (value : ℚ) :
    (r.histogram name "process_duration_us" processDurationBucketsUs (·.observe value)).nodeCounts name =
      { r.nodeCounts name with observations := (r.nodeCounts name).observations + 1 } := by
  unfold nodeCounts
  rw [getHistogram_histogram, if_pos rfl]
  rfl

theorem nodeCounts_queueDepth (name : String) (value : Int64) :
    (r.gauge name "queue_depth" (·.set value)).nodeCounts name = { r.nodeCounts name with queueDepth := value } := by
  unfold nodeCounts
  rw [getGauge_gauge, if_pos rfl]
  rfl

theorem nodeCounts_errors (name : String) : (r.counter name "errors_total" (·.increment 1)).nodeCounts name =
    { r.nodeCounts name with errors := (r.nodeCounts name).errors + 1 } := by
  have hcalls : metricName name "process_calls_total" ≠ metricName name "errors_total" := by
    rw [Ne, metricName_undotted (by decide) (by decide)]
    exact fun h => absurd h.2 (by decide)
  unfold nodeCounts
  rw [getCounter_counter, if_neg hcalls, getCounter_counter, if_pos rfl]
  rfl

end MetricRegistry

section Walk
variable {M : Type} [Node M]

def nodeCountsOf (name : String) (metrics : Option MetricRegistry) : Option NodeCounts :=
  metrics.map (MetricRegistry.nodeCounts · name)

theorem nodeCountsOf_record {name module metric : String} (h : Elsewhere name module metric) (use : MetricUse)
    (metrics : Option MetricRegistry) :
    nodeCountsOf name (metrics.map (·.record module metric use)) = nodeCountsOf name metrics := by
  unfold nodeCountsOf
  rw [Option.map_map]
  exact congrArg (Option.map · metrics) (funext fun r => r.nodeCounts_record h use)

/-- One call of a module: if it is a module of that name, and returns, it is counted. -/
def NodeCounts.account (name : String) (c : NodeCounts) (served : GraphNode M × Packet) : NodeCounts :=
  match served.1.process served.2 with
  | (_, .panicked _) => c
  | (node, .returned outcome) => if node.metadata.name = name then c.returned node.queue.len outcome.isOk else c

theorem flow_elsewhere (name : String) {module metric : String} (hmetric : '.' ∉ metric.toList)
    (h : metric ∉ nodeMetrics) : Elsewhere name module metric := elsewhere_of_ne hmetric (.inr h)

theorem nodeCountsOf_flowEntry (name : String) (metrics : Option MetricRegistry) (len : Nat) :
    nodeCountsOf name (recordFlowEntry metrics len) = nodeCountsOf name metrics := by
  have htotal : Elsewhere name flowMetricsScope "packets_total" := flow_elsewhere name (by decide) (by decide)
  have hbytes : Elsewhere name flowMetricsScope "bytes_total" := flow_elsewhere name (by decide) (by decide)
  unfold recordFlowEntry nodeCountsOf
  rw [Option.map_map]
  refine congrArg (Option.map · metrics) (funext fun r => ?_)
  have hentered := r.nodeCounts_record htotal (.increment 1)
  exact (MetricRegistry.nodeCounts_record _ hbytes (.increment (.ofNat (min len u64Max)))).trans hentered

theorem nodeCountsOf_flowExit (name : String) (metrics : Option MetricRegistry) (elapsed : Duration)
    (reachedExit : Bool) : nodeCountsOf name (recordFlowExit metrics elapsed reachedExit) = nodeCountsOf name metrics := by
  have hlatency : Elsewhere name flowMetricsScope "packet_latency_us" := flow_elsewhere name (by decide) (by decide)
  have hdropped : Elsewhere name flowMetricsScope "packets_dropped" := flow_elsewhere name (by decide) (by decide)
  cases reachedExit with
  | true => exact nodeCountsOf_record hlatency (.observe packetLatencyBucketsUs (micros elapsed)) metrics
  | false => exact nodeCountsOf_record hdropped (.increment 1) metrics

theorem nodeCountsOf_nodeMetrics (name : String) (metrics : Option MetricRegistry) (node : GraphNode M)
    (elapsed : Duration) (succeeded : Bool) : nodeCountsOf name (recordNodeMetrics metrics node elapsed succeeded) =
      (nodeCountsOf name metrics).map fun c =>
        if node.metadata.name = name then c.returned node.queue.len succeeded else c := by
  unfold recordNodeMetrics nodeCountsOf
  rw [Option.map_map, Option.map_map]
  refine congrArg (Option.map · metrics) (funext fun r => ?_)
  dsimp only [Function.comp_apply]
  by_cases hname : node.metadata.name = name
  · subst hname
    rw [if_pos rfl]
    cases succeeded with
    | true =>
      rw [if_pos rfl, MetricRegistry.nodeCounts_queueDepth, MetricRegistry.nodeCounts_processDuration,
        MetricRegistry.nodeCounts_processCalls]
      rfl
    | false =>
      rw [if_neg Bool.false_ne_true, MetricRegistry.nodeCounts_errors, MetricRegistry.nodeCounts_queueDepth,
        MetricRegistry.nodeCounts_processDuration, MetricRegistry.nodeCounts_processCalls]
      rfl
  · have helsewhere : ∀ metric ∈ nodeMetrics, Elsewhere name node.metadata.name metric :=
      fun metric hmetric => elsewhere_of_ne (nodeMetrics_undotted metric hmetric) (.inl hname)
    have hthree : (((r.record node.metadata.name "process_calls_total" (.increment 1)).record node.metadata.name
        "process_duration_us" (.observe processDurationBucketsUs (micros elapsed))).record node.metadata.name
        "queue_depth" (.set (.ofNat (min node.queue.len i64Max)))).nodeCounts name = r.nodeCounts name := by
      rw [MetricRegistry.nodeCounts_record _ (helsewhere _ (by decide)),
        MetricRegistry.nodeCounts_record _ (helsewhere _ (by decide)),
        MetricRegistry.nodeCounts_record _ (helsewhere _ (by decide))]
    rw [if_neg hname]
    cases succeeded with
    | true => exact hthree
    | false =>
      have herrors := helsewhere "errors_total" (by decide)
      exact (MetricRegistry.nodeCounts_record _ herrors (.increment 1)).trans hthree

def NodeCounts.after (name : String) (c : NodeCounts) (served : List (GraphNode M × Packet)) : NodeCounts :=
  served.foldl (account name) c

def NodeCounts.tally (name : String) (c : Option NodeCounts) (served : GraphNode M × Packet) : Option NodeCounts :=
  c.map (·.account name served)

theorem NodeCounts.foldl_tally (name : String) (c : Option NodeCounts) (served : List (GraphNode M × Packet)) :
    served.foldl (tally name) c = c.map (·.after name served) := by
  induction served generalizing c with
  | nil => exact Option.map_id'.symm
  | cons call served ih =>
    rw [List.foldl_cons, ih]
    exact Option.map_map ..

def countedUnder (name : String) (served : GraphNode M × Packet) : Bool :=
  match served.1.process served.2 with
  | (_, .panicked _) => false
  | (node, .returned _) => decide (node.metadata.name = name)

/-- The module itself has failed; the time it took is not asked. -/
def failedCall (served : GraphNode M × Packet) : Bool :=
  match served.1.process served.2 with
  | (_, .returned (.error _)) => true
  | _ => false

def leftQueued (served : GraphNode M × Packet) : Int64 :=
  .ofNat (min (served.1.process served.2).1.queue.len i64Max)

namespace NodeCounts

theorem account_eq (name : String) (c : NodeCounts) (served : GraphNode M × Packet) :
    c.account name served = if countedUnder name served then
      ⟨c.processCalls + 1, c.observations + 1, leftQueued served, c.errors + .ofNat (failedCall served).toNat⟩ else c := by
  have hzero : ∀ n : UInt64, n = n + .ofNat false.toNat := fun n => (UInt64.add_zero n).symm
  unfold account countedUnder failedCall leftQueued
  rcases served.1.process served.2 with ⟨node', (_ | _) | _⟩ <;> dsimp only
  · by_cases hname : node'.metadata.name = name
    · rw [if_pos hname, if_pos (decide_eq_true hname)]
      rfl
    · rw [if_neg hname, if_neg (by simpa using hname)]
  · by_cases hname : node'.metadata.name = name
    · rw [if_pos hname, if_pos (decide_eq_true hname), ← hzero]
      rfl
    · rw [if_neg hname, if_neg (by simpa using hname)]
  · rfl

theorem after_eq (name : String) (c : NodeCounts) (served : List (GraphNode M × Packet)) :
    c.after name served =
      { processCalls := c.processCalls + .ofNat (served.countP (countedUnder name))
        observations := c.observations + served.countP (countedUnder name)
        queueDepth := ((served.filter (countedUnder name)).getLast?.map leftQueued).getD c.queueDepth
        errors := c.errors + .ofNat ((served.filter (countedUnder name)).countP failedCall) } := by
  induction served generalizing c with
  | nil =>
    have hzero : ∀ n : UInt64, n + .ofNat 0 = n := UInt64.add_zero
    unfold after
    simp only [List.foldl_nil, List.countP_nil, List.filter_nil, hzero]
    rfl
  | cons call served ih =>
    have hcons : c.after name (call :: served) = (c.account name call).after name served := rfl
    rw [hcons, ih, account_eq]
    cases hcounted : countedUnder name call with
    | false =>
      rw [List.countP_cons_of_neg (by simp [hcounted]), List.filter_cons_of_neg (by simp [hcounted])]
      rfl
    | true =>
      rw [List.countP_cons_of_pos hcounted, List.filter_cons_of_pos hcounted, List.countP_cons, List.getLast?_cons,
        if_pos rfl, NodeCounts.mk.injEq]
      refine ⟨?_, ?_, ?_, ?_⟩
      · change c.processCalls + 1 + .ofNat _ = c.processCalls + .ofNat (_ + 1)
        rw [UInt64.ofNat_add, UInt64.add_assoc, UInt64.add_comm 1]
        rfl
      · change c.observations + 1 + _ = c.observations + (_ + 1)
        rw [Nat.add_assoc, Nat.add_comm 1]
      · change ((served.filter (countedUnder name)).getLast?.map leftQueued).getD (leftQueued call) = _
        cases (served.filter (countedUnder name)).getLast? <;> rfl
      · change c.errors + .ofNat _ + .ofNat _ = c.errors + .ofNat (_ + _)
        rw [UInt64.ofNat_add, UInt64.add_assoc, UInt64.add_comm (.ofNat (failedCall call).toNat)]
        cases failedCall call <;> rfl

end NodeCounts

theorem GraphNode.nodeCountsOf_processMetered (name : String) (node : GraphNode M) (metrics : Option MetricRegistry)
    (packet : Packet) (elapsed : Duration) : nodeCountsOf name (node.processMetered metrics packet elapsed).2.1 =
      (nodeCountsOf name metrics).map (·.account name (node, packet)) := by
  unfold processMetered NodeCounts.account
  dsimp only
  rcases node.process packet with ⟨node', outcome | reason⟩
  · have hrecorded := nodeCountsOf_nodeMetrics name metrics node' elapsed outcome.isOk
    dsimp only
    cases node'.checkProcessingTime elapsed with
    | error => exact hrecorded
    | ok => cases outcome <;> exact hrecorded
  · exact Option.map_id'.symm

namespace FlowGraph
variable (name : String)

theorem nodeCountsOf_visitMetered (g : FlowGraph M) (metrics : Option MetricRegistry) (current : NodeId)
    (packet : Packet) (reading : Reading) : nodeCountsOf name (g.visitMetered metrics current packet reading).2.1 =
      (nodeCountsOf name metrics).map (·.after name (g.serves current packet reading)) := by
  unfold visitMetered serves
  cases g.node current with
  | none => exact Option.map_id'.symm
  | some node =>
    dsimp only
    cases node.checkPayloadLimit packet with
    | error => exact Option.map_id'.symm
    | ok =>
      dsimp only
      rcases node.enqueueAndDequeueSync (packet.recordHop current reading.now) with ⟨node', (_ | queued) | _⟩
      · exact Option.map_id'.symm
      · exact node'.nodeCountsOf_processMetered name metrics queued reading.elapsed
      · exact Option.map_id'.symm

theorem nodeCountsOf_walkMetered (readings : List Reading) (g : FlowGraph M) (metrics : Option MetricRegistry)
    (current : NodeId) (packet : Packet) : nodeCountsOf name (walkMetered readings g metrics current packet).2.1 =
      (nodeCountsOf name metrics).map (·.after name (walkServes readings g current packet)) := by
  induction readings generalizing g metrics current packet with
  | nil => exact Option.map_id'.symm
  | cons reading readings ih =>
    have hvisit := g.nodeCountsOf_visitMetered name metrics current packet reading
    have hsame := g.visitMetered_eq metrics current packet reading
    unfold walkMetered walkServes
    rcases hmetered : g.visitMetered metrics current packet reading with ⟨g₁, metrics₁, hop₁⟩
    rcases hplain : g.visit current packet reading with ⟨g₂, calls, hop₂⟩
    rw [hmetered, hplain] at hsame
    rw [hmetered] at hvisit
    obtain ⟨rfl, rfl⟩ := Prod.mk.inj hsame
    cases hop₁ with
    | stop =>
      rw [List.append_nil]
      exact hvisit
    | next current packet =>
      dsimp only
      rw [ih, hvisit, Option.map_map]
      refine congrArg (Option.map · _) (funext fun c => ?_)
      exact (List.foldl_append).symm

theorem nodeCountsOf_executeSequentialMetered (g : FlowGraph M) (entry : NodeId) (packet : Packet)
    (metrics : Option MetricRegistry) (readings : List Reading) (latency : Duration) :
    nodeCountsOf name (g.executeSequentialMetered entry packet metrics readings latency).2.1 =
      (nodeCountsOf name metrics).map (·.after name (g.sequentialServes entry packet readings)) := by
  have hinner : nodeCountsOf name
      (g.executeSequentialInner entry packet (recordFlowEntry metrics packet.len) readings).2.1 =
        (nodeCountsOf name metrics).map (·.after name (g.sequentialServes entry packet readings)) := by
    rw [← nodeCountsOf_flowEntry name metrics packet.len]
    unfold executeSequentialInner sequentialServes
    split_ifs
    · exact nodeCountsOf_walkMetered name readings g _ entry packet
    · exact Option.map_id'.symm
  rw [← hinner]
  unfold executeSequentialMetered
  rcases g.executeSequentialInner entry packet (recordFlowEntry metrics packet.len) readings with
    ⟨g', metrics', _ | result | _⟩
  · rfl
  · exact nodeCountsOf_flowExit name metrics' latency _
  · rfl

end FlowGraph
end Walk
end Nyarix
