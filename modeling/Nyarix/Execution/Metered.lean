import Nyarix.Execution.Served
import Nyarix.Metrics

/-! Sequential execution with a metric registry attached: what it records of the flow as a whole, and of
each module call that returns. A panic unwinds past every recording that is still to come. -/

namespace Nyarix

def flowMetricsScope : String := "flow"

def processDurationBucketsUs : List ℚ := [50, 100, 500, 1000, 5000, 10000, 100000, 1000000]

def packetLatencyBucketsUs : List ℚ := processDurationBucketsUs

def micros (d : Duration) : Nat := d / 1000

def i64Max : Nat := 2 ^ 63 - 1

def recordFlowEntry (metrics : Option MetricRegistry) (len : Nat) : Option MetricRegistry :=
  metrics.map fun r =>
    (r.counter flowMetricsScope "packets_total" (·.increment 1)).counter flowMetricsScope "bytes_total"
      (·.increment (.ofNat (min len u64Max)))

def recordFlowExit (metrics : Option MetricRegistry) (elapsed : Duration) (reachedExit : Bool) :
    Option MetricRegistry :=
  metrics.map fun r =>
    if reachedExit then
      r.histogram flowMetricsScope "packet_latency_us" packetLatencyBucketsUs (·.observe (micros elapsed))
    else r.counter flowMetricsScope "packets_dropped" (·.increment 1)

section Metered
variable {M : Type} [Node M]

def recordNodeMetrics (metrics : Option MetricRegistry) (node : GraphNode M) (elapsed : Duration)
    (succeeded : Bool) : Option MetricRegistry :=
  metrics.map fun r =>
    let name := node.metadata.name
    let r := r.counter name "process_calls_total" (·.increment 1)
    let r := r.histogram name "process_duration_us" processDurationBucketsUs (·.observe (micros elapsed))
    let r := r.gauge name "queue_depth" (·.set (.ofNat (min node.queue.len i64Max)))
    if succeeded then r else r.counter name "errors_total" (·.increment 1)

def GraphNode.processMetered (node : GraphNode M) (metrics : Option MetricRegistry) (packet : Packet)
    (elapsed : Duration) : GraphNode M × Option MetricRegistry × Unwind (Except ExecutionError (Option Packet)) :=
  match node.process packet with
  | (node, .panicked reason) => (node, metrics, .panicked reason)
  | (node, .returned outcome) =>
    let metrics := recordNodeMetrics metrics node elapsed outcome.isOk
    match node.checkProcessingTime elapsed with
    | .error e => (node, metrics, .returned (.error e))
    | .ok () =>
      match outcome with
      | .error e => (node, metrics, .returned (.error (.module e)))
      | .ok packet => (node, metrics, .returned (.ok packet))

namespace FlowGraph

def visitMetered (g : FlowGraph M) (metrics : Option MetricRegistry) (current : NodeId) (packet : Packet)
    (reading : Reading) : FlowGraph M × Option MetricRegistry × Hop :=
  match g.node current with
  | none => (g, metrics, .stop (.returned (.error (missingNode current))))
  | some node =>
    match node.checkPayloadLimit packet with
    | .error e => (g, metrics, .stop (.returned (.error e)))
    | .ok () =>
      match node.enqueueAndDequeueSync (packet.recordHop current reading.now) with
      | (node, .panicked reason) => (g.modifyNode current fun _ => node, metrics, .stop (.panicked reason))
      | (node, .returned (.error e)) => (g.modifyNode current fun _ => node, metrics, .stop (.returned (.error e)))
      | (node, .returned (.ok queued)) =>
        let r := node.processMetered metrics queued reading.elapsed
        (g.modifyNode current fun _ => r.1, r.2.1, g.onward current r.2.2)

def walkMetered : List Reading → FlowGraph M → Option MetricRegistry → NodeId → Packet →
    FlowGraph M × Option MetricRegistry × Option Outcome
  | [], g, metrics, _, _ => (g, metrics, none)
  | reading :: readings, g, metrics, current, packet =>
    match g.visitMetered metrics current packet reading with
    | (g, metrics, .stop outcome) => (g, metrics, some outcome)
    | (g, metrics, .next current packet) => walkMetered readings g metrics current packet

def executeSequentialInner (g : FlowGraph M) (entry : NodeId) (packet : Packet) (metrics : Option MetricRegistry)
    (readings : List Reading) : FlowGraph M × Option MetricRegistry × Option Outcome :=
  if entry ∈ g.entryPoints then walkMetered readings g metrics entry packet
  else (g, metrics, some (.returned (.error (missingNode entry))))

/-- The exit is recorded when the walk returns, with the time since the entry was. -/
def executeSequentialMetered (g : FlowGraph M) (entry : NodeId) (packet : Packet) (metrics : Option MetricRegistry)
    (readings : List Reading) (latency : Duration) : FlowGraph M × Option MetricRegistry × Option Outcome :=
  match g.executeSequentialInner entry packet (recordFlowEntry metrics packet.len) readings with
  | (g, metrics, some (.returned result)) =>
    (g, recordFlowExit metrics latency (Outcome.output (.returned result)).isSome, some (.returned result))
  | r => r

end FlowGraph

theorem GraphNode.processMetered_eq (node : GraphNode M) (metrics : Option MetricRegistry) (packet : Packet)
    (elapsed : Duration) : ((node.processMetered metrics packet elapsed).1,
      (node.processMetered metrics packet elapsed).2.2) = node.processTimed packet elapsed := by
  unfold processMetered processTimed
  rcases node.process packet with ⟨node', outcome | reason⟩
  · dsimp only
    cases node'.checkProcessingTime elapsed with
    | error => rfl
    | ok => cases outcome <;> rfl
  · rfl

namespace FlowGraph

theorem visitMetered_eq (g : FlowGraph M) (metrics : Option MetricRegistry) (current : NodeId) (packet : Packet)
    (reading : Reading) : ((g.visitMetered metrics current packet reading).1,
      (g.visitMetered metrics current packet reading).2.2) =
        ((g.visit current packet reading).1, (g.visit current packet reading).2.2) := by
  unfold visitMetered visit
  cases g.node current with
  | none => rfl
  | some node =>
    dsimp only
    cases node.checkPayloadLimit packet with
    | error => rfl
    | ok =>
      dsimp only
      rcases node.enqueueAndDequeueSync (packet.recordHop current reading.now) with ⟨node', (_ | queued) | _⟩
      · rfl
      · have hprocess := node'.processMetered_eq metrics queued reading.elapsed
        rw [Prod.ext_iff] at hprocess
        dsimp only at hprocess ⊢
        rw [hprocess.1, hprocess.2]
      · rfl

theorem walkMetered_eq (readings : List Reading) (g : FlowGraph M) (metrics : Option MetricRegistry)
    (current : NodeId) (packet : Packet) : ((walkMetered readings g metrics current packet).1,
      (walkMetered readings g metrics current packet).2.2) =
        ((walk readings g current packet).graph, (walk readings g current packet).outcome) := by
  induction readings generalizing g metrics current packet with
  | nil => rfl
  | cons reading readings ih =>
    have hvisit := g.visitMetered_eq metrics current packet reading
    unfold walkMetered walk
    rcases hmetered : g.visitMetered metrics current packet reading with ⟨g₁, metrics₁, hop₁⟩
    rcases hplain : g.visit current packet reading with ⟨g₂, calls, hop₂⟩
    rw [hmetered, hplain] at hvisit
    obtain ⟨rfl, rfl⟩ := Prod.mk.inj hvisit
    cases hop₁ with
    | stop => rfl
    | next current packet => exact ih g₁ metrics₁ current packet

theorem executeSequentialMetered_eq (g : FlowGraph M) (entry : NodeId) (packet : Packet)
    (metrics : Option MetricRegistry) (readings : List Reading) (latency : Duration) :
    ((g.executeSequentialMetered entry packet metrics readings latency).1,
      (g.executeSequentialMetered entry packet metrics readings latency).2.2) =
        ((g.executeSequential entry packet readings).graph, (g.executeSequential entry packet readings).outcome) := by
  have hinner : ((g.executeSequentialInner entry packet (recordFlowEntry metrics packet.len) readings).1,
      (g.executeSequentialInner entry packet (recordFlowEntry metrics packet.len) readings).2.2) =
        ((g.executeSequential entry packet readings).graph, (g.executeSequential entry packet readings).outcome) := by
    unfold executeSequentialInner executeSequential
    split_ifs
    · exact walkMetered_eq readings g _ entry packet
    · rfl
  rw [← hinner]
  unfold executeSequentialMetered
  rcases g.executeSequentialInner entry packet (recordFlowEntry metrics packet.len) readings with
    ⟨g', metrics', _ | _ | _⟩ <;> rfl

end FlowGraph
end Metered
end Nyarix
