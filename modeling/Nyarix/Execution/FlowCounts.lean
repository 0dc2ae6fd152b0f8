import Nyarix.Execution.Metered

/-! What the flow-level metrics count. Nothing but the walk's own entry and exit records them, unless a
module goes by the name they are recorded under; and a walk that unwinds records no exit. -/

namespace Nyarix

/-- The flow-level metrics of which every packet that enters should come to one of the last two. -/
def flowMetrics : List String := ["packets_total", "packet_latency_us", "packets_dropped"]

structure FlowCounts where
  packetsTotal : UInt64
  latencyCount : Nat
  packetsDropped : UInt64

namespace FlowCounts

def Balanced (c : FlowCounts) : Prop := c.packetsTotal.toNat = c.latencyCount + c.packetsDropped.toNat

instance (c : FlowCounts) : Decidable c.Balanced := inferInstanceAs (Decidable (_ = _))

def entered (c : FlowCounts) : FlowCounts := { c with packetsTotal := c.packetsTotal + 1 }

def exited (c : FlowCounts) (reachedExit : Bool) : FlowCounts :=
  if reachedExit then { c with latencyCount := c.latencyCount + 1 }
  else { c with packetsDropped := c.packetsDropped + 1 }

@[simp] theorem exited_packetsTotal (c : FlowCounts) (reachedExit : Bool) :
    (c.exited reachedExit).packetsTotal = c.packetsTotal := by
  cases reachedExit <;> rfl

def account (c : FlowCounts) : Option Outcome → FlowCounts
  | some (.returned result) => c.entered.exited (Outcome.output (.returned result)).isSome
  | some (.panicked _) | none => c.entered

end FlowCounts

def MetricRegistry.flowCounts (r : MetricRegistry) : FlowCounts where
  packetsTotal := ((r.getCounter flowMetricsScope "packets_total").getD .default).value
  latencyCount := ((r.getHistogram flowMetricsScope "packet_latency_us").getD (.new packetLatencyBucketsUs)).count
  packetsDropped := ((r.getCounter flowMetricsScope "packets_dropped").getD .default).value

def Foreign (module name : String) : Prop := ¬ (module = flowMetricsScope ∧ name ∈ flowMetrics)

instance (module name : String) : Decidable (Foreign module name) := inferInstanceAs (Decidable (¬ _))

theorem flowMetrics_undotted : ∀ name ∈ flowMetrics, '.' ∉ name.toList := by decide

theorem metricName_flow {name module name' : String} (hname : name ∈ flowMetrics) :
    metricName flowMetricsScope name = metricName module name' ↔ flowMetricsScope = module ∧ name = name' :=
  metricName_eq_iff (by decide) (flowMetrics_undotted name hname)

theorem Foreign.ne {module name : String} (h : Foreign module name) {name' : String} (hname : name' ∈ flowMetrics) :
    metricName flowMetricsScope name' ≠ metricName module name := by
  intro heq
  obtain ⟨rfl, rfl⟩ := (metricName_flow hname).mp heq
  exact h ⟨rfl, hname⟩

namespace MetricRegistry
variable (r : MetricRegistry)

theorem flowCounts_record {module name : String} (h : Foreign module name) (use : MetricUse) :
    (r.record module name use).flowCounts = r.flowCounts := by
  have hother : ∀ name' ∈ flowMetrics, metricName flowMetricsScope name' ≠ metricName module name :=
    fun name' hname' => h.ne hname'
  have htotal := hother "packets_total" (by decide)
  have hlatency := hother "packet_latency_us" (by decide)
  have hdropped := hother "packets_dropped" (by decide)
  cases use with
  | increment delta =>
    unfold record flowCounts
    rw [getCounter_counter, if_neg htotal, getCounter_counter, if_neg hdropped]
    rfl
  | set | add => rfl
  | observe bounds value =>
    unfold record flowCounts
    rw [getHistogram_histogram, if_neg hlatency]
    rfl

theorem flowCounts_packetsTotal :
    (r.counter flowMetricsScope "packets_total" (·.increment 1)).flowCounts = r.flowCounts.entered := by
  have hdropped : metricName flowMetricsScope "packets_dropped" ≠ metricName flowMetricsScope "packets_total" := by
    rw [Ne, metricName_flow (by decide)]
    decide
  unfold flowCounts
  rw [getCounter_counter, if_pos rfl, getCounter_counter, if_neg hdropped]
  rfl

theorem flowCounts_packetsDropped :
    (r.counter flowMetricsScope "packets_dropped" (·.increment 1)).flowCounts = r.flowCounts.exited false := by
  have htotal : metricName flowMetricsScope "packets_total" ≠ metricName flowMetricsScope "packets_dropped" := by
    rw [Ne, metricName_flow (by decide)]
    decide
  unfold flowCounts
  rw [getCounter_counter, if_neg htotal, getCounter_counter, if_pos rfl]
  rfl

theorem flowCounts_packetLatency (value : ℚ) :
    (r.histogram flowMetricsScope "packet_latency_us" packetLatencyBucketsUs (·.observe value)).flowCounts =
      r.flowCounts.exited true := by
  unfold flowCounts
  rw [getHistogram_histogram, if_pos rfl]
  rfl

end MetricRegistry

section Walk
variable {M : Type} [Node M]

def flowCountsOf (metrics : Option MetricRegistry) : Option FlowCounts := metrics.map MetricRegistry.flowCounts

theorem flowCountsOf_flowEntry (metrics : Option MetricRegistry) (len : Nat) :
    flowCountsOf (recordFlowEntry metrics len) = (flowCountsOf metrics).map .entered := by
  cases metrics with
  | none => rfl
  | some r =>
    have hbytes : Foreign flowMetricsScope "bytes_total" := by decide
    have hentry := (r.counter flowMetricsScope "packets_total" (·.increment 1)).flowCounts_record hbytes
      (.increment (.ofNat (min len u64Max)))
    rw [MetricRegistry.flowCounts_packetsTotal] at hentry
    exact congrArg some hentry

theorem flowCountsOf_flowExit (metrics : Option MetricRegistry) (elapsed : Duration) (reachedExit : Bool) :
    flowCountsOf (recordFlowExit metrics elapsed reachedExit) = (flowCountsOf metrics).map (·.exited reachedExit) := by
  cases metrics with
  | none => rfl
  | some r =>
    cases reachedExit with
    | true => exact congrArg some (r.flowCounts_packetLatency _)
    | false => exact congrArg some r.flowCounts_packetsDropped

theorem flowCountsOf_nodeMetrics (metrics : Option MetricRegistry) (node : GraphNode M) (elapsed : Duration)
    (succeeded : Bool) : flowCountsOf (recordNodeMetrics metrics node elapsed succeeded) = flowCountsOf metrics := by
  have hforeign : ∀ name ∉ flowMetrics, Foreign node.metadata.name name := fun name hname hflow => hname hflow.2
  have hcalls := hforeign "process_calls_total" (by decide)
  have hduration := hforeign "process_duration_us" (by decide)
  have hdepth := hforeign "queue_depth" (by decide)
  have herrors := hforeign "errors_total" (by decide)
  cases metrics with
  | none => rfl
  | some r =>
    have hthree : (((r.record node.metadata.name "process_calls_total" (.increment 1)).record node.metadata.name
        "process_duration_us" (.observe processDurationBucketsUs (micros elapsed))).record node.metadata.name
        "queue_depth" (.set (.ofNat (min node.queue.len i64Max)))).flowCounts = r.flowCounts := by
      rw [MetricRegistry.flowCounts_record _ hdepth, MetricRegistry.flowCounts_record _ hduration,
        MetricRegistry.flowCounts_record _ hcalls]
    apply congrArg some
    cases succeeded with
    | true => exact hthree
    | false => exact (MetricRegistry.flowCounts_record _ herrors (.increment 1)).trans hthree

theorem GraphNode.flowCountsOf_processMetered (node : GraphNode M) (metrics : Option MetricRegistry) (packet : Packet)
    (elapsed : Duration) : flowCountsOf (node.processMetered metrics packet elapsed).2.1 = flowCountsOf metrics := by
  unfold processMetered
  rcases node.process packet with ⟨node', outcome | reason⟩
  · have hnode := flowCountsOf_nodeMetrics metrics node' elapsed outcome.isOk
    dsimp only
    cases node'.checkProcessingTime elapsed with
    | error => exact hnode
    | ok => cases outcome <;> exact hnode
  · rfl

namespace FlowGraph

theorem flowCountsOf_visitMetered (g : FlowGraph M) (metrics : Option MetricRegistry) (current : NodeId)
    (packet : Packet) (reading : Reading) :
    flowCountsOf (g.visitMetered metrics current packet reading).2.1 = flowCountsOf metrics := by
  unfold visitMetered
  cases g.node current with
  | none => rfl
  | some node =>
    dsimp only
    cases node.checkPayloadLimit packet with
    | error => rfl
    | ok =>
      dsimp only
      rcases node.enqueueAndDequeueSync (packet.recordHop current reading.now) with ⟨node', (_ | queued) | _⟩
      · rfl
      · exact node'.flowCountsOf_processMetered metrics queued reading.elapsed
      · rfl

theorem flowCountsOf_walkMetered (readings : List Reading) (g : FlowGraph M) (metrics : Option MetricRegistry)
    (current : NodeId) (packet : Packet) :
    flowCountsOf (walkMetered readings g metrics current packet).2.1 = flowCountsOf metrics := by
  induction readings generalizing g metrics current packet with
  | nil => rfl
  | cons reading readings ih =>
    have hvisit := g.flowCountsOf_visitMetered metrics current packet reading
    unfold walkMetered
    rcases hmetered : g.visitMetered metrics current packet reading with ⟨g', metrics', hop⟩
    rw [hmetered] at hvisit
    cases hop with
    | stop => exact hvisit
    | next current packet => exact (ih g' metrics' current packet).trans hvisit

theorem flowCountsOf_executeSequentialMetered (g : FlowGraph M) (entry : NodeId) (packet : Packet)
    (metrics : Option MetricRegistry) (readings : List Reading) (latency : Duration) :
    flowCountsOf (g.executeSequentialMetered entry packet metrics readings latency).2.1 =
      (flowCountsOf metrics).map (·.account (g.executeSequential entry packet readings).outcome) := by
  have hsame := g.executeSequentialMetered_eq entry packet metrics readings latency
  have hinner : flowCountsOf (g.executeSequentialInner entry packet (recordFlowEntry metrics packet.len) readings).2.1 =
      (flowCountsOf metrics).map .entered := by
    rw [← flowCountsOf_flowEntry metrics packet.len]
    unfold executeSequentialInner
    split_ifs
    · exact flowCountsOf_walkMetered readings g _ entry packet
    · rfl
  rw [← (Prod.mk.inj hsame).2]
  unfold executeSequentialMetered
  rcases hr : g.executeSequentialInner entry packet (recordFlowEntry metrics packet.len) readings with
    ⟨g', metrics', _ | result | _⟩ <;> rw [hr] at hinner
  · exact hinner
  · dsimp only at hinner ⊢
    rw [flowCountsOf_flowExit, hinner, Option.map_map]
    rfl
  · exact hinner

end FlowGraph
end Walk
end Nyarix
