import Nyarix.Lib.Sidecar
import Nyarix.Packet

/-! The trace of a packet: the nodes it was recorded at, and the times of some of them. Both are
lists that only grow, and the summary joins them by position. -/

namespace Nyarix

structure TraceHop where
  node : NodeId
  elapsedMs : Option Nat
  deriving DecidableEq, Repr

namespace Metadata

def tracePush (m : Metadata) (node : NodeId) : Metadata := { m with trace := m.trace ++ [node] }

def withTracing (m : Metadata) (detailed : Bool) : Metadata := { m with traced := true, traceDetailed := detailed }

def traceSummary (m : Metadata) : List TraceHop := m.trace.mapIdx fun i node => ⟨node, m.traceTimestampsMs[i]?⟩

end Metadata

inductive TraceCall where
  | withTracing (detailed : Bool)
  | tracePush (node : NodeId)
  | recordHop (node : NodeId) (now : Instant)

namespace Metadata

def step (m : Metadata) : TraceCall → Metadata
  | .withTracing detailed => m.withTracing detailed
  | .tracePush node => m.tracePush node
  | .recordHop node now => m.recordHop node now

def elapsedMs (m : Metadata) (now : Instant) : Nat := min (millis (now - m.createdAt)) u64Max

def appends (m : Metadata) : TraceCall → Option TraceHop
  | .withTracing _ => none
  | .tracePush node => some ⟨node, none⟩
  | .recordHop node now =>
    if m.traced then some ⟨node, if m.traceDetailed then some (m.elapsedMs now) else none⟩ else none

def hops (m : Metadata) : List TraceCall → List TraceHop
  | [] => []
  | call :: calls => (m.appends call).toList ++ (m.step call).hops calls

theorem step_trace (m : Metadata) (call : TraceCall) :
    (m.step call).trace = m.trace ++ (m.appends call).toList.map TraceHop.node ∧
      (m.step call).traceTimestampsMs = m.traceTimestampsMs ++ (m.appends call).toList.filterMap TraceHop.elapsedMs := by
  cases call with
  | withTracing detailed => exact ⟨(List.append_nil _).symm, (List.append_nil _).symm⟩
  | tracePush node => exact ⟨rfl, (List.append_nil _).symm⟩
  | recordHop node now =>
    unfold step appends recordHop
    cases htraced : m.traced with
    | false => exact ⟨(List.append_nil _).symm, (List.append_nil _).symm⟩
    | true =>
      cases hdetailed : m.traceDetailed with
      | false => simp
      | true => simp [elapsedMs]

theorem foldl_trace (m : Metadata) (calls : List TraceCall) :
    (calls.foldl step m).trace = m.trace ++ (m.hops calls).map TraceHop.node ∧
      (calls.foldl step m).traceTimestampsMs = m.traceTimestampsMs ++ (m.hops calls).filterMap TraceHop.elapsedMs := by
  induction calls generalizing m with
  | nil => exact ⟨(List.append_nil _).symm, (List.append_nil _).symm⟩
  | cons call calls ih =>
    obtain ⟨htrace, htimes⟩ := m.step_trace call
    rw [List.foldl_cons, (ih _).1, (ih _).2, htrace, htimes, hops, List.map_append, List.filterMap_append,
      List.append_assoc, List.append_assoc]
    exact ⟨rfl, rfl⟩

/-- The summary of a packet lists its hops, each with its own time, exactly if no hop that was timed
came after one that was not. -/
theorem trace_summary_iff {m : Metadata} (hnodes : m.trace = []) (htimes : m.traceTimestampsMs = [])
    (calls : List TraceCall) : (calls.foldl step m).traceSummary = m.hops calls ↔
      (m.hops calls).Pairwise fun earlier later => later.elapsedMs.isSome → earlier.elapsedMs.isSome := by
  obtain ⟨htrace, hstamps⟩ := m.foldl_trace calls
  rw [traceSummary, htrace, hstamps, hnodes, htimes, List.nil_append, List.nil_append]
  have hmake (h : TraceHop) : TraceHop.mk h.node h.elapsedMs = h := rfl
  exact Sidecar.join_eq_iff hmake (fun _ _ => rfl) (m.hops calls)

def stubMetadata : Metadata := .new ⟨7⟩ ⟨7⟩ ⟨7⟩ 0

def lateTracing : List TraceCall := [.tracePush ⟨1⟩, .withTracing true, .recordHop ⟨2⟩ 5000000]

theorem trace_summary_iff_late : (lateTracing.foldl step stubMetadata).traceSummary = stubMetadata.hops lateTracing ↔
    (stubMetadata.hops lateTracing).Pairwise fun earlier later => later.elapsedMs.isSome → earlier.elapsedMs.isSome :=
  trace_summary_iff rfl rfl lateTracing

theorem late_tracing_misattributes :
    (lateTracing.foldl step stubMetadata).traceSummary = [⟨⟨1⟩, some 5⟩, ⟨⟨2⟩, none⟩] ∧
      (lateTracing.foldl step stubMetadata).traceSummary ≠ stubMetadata.hops lateTracing := by
  decide

end Metadata
end Nyarix
