import Nyarix.Graph.Stub

/-! Task priorities and the queue with one lane for each of them, and what either kind of
queue loses when its last sender is dropped. -/

namespace Nyarix

inductive TaskPriority where
  | realtime | high | normal | low | background
  deriving DecidableEq, Repr

structure PriorityQueue (T : Type) where
  lanes : TaskPriority → Channel T

def priorityQueue (T : Type) (capacity : Nat) (h : 0 < capacity) : PriorityQueue T :=
  ⟨fun _ => .empty capacity h⟩

namespace PriorityQueue
variable {T : Type}

def trySend (q : PriorityQueue T) (priority : TaskPriority) (item : T) : Option (PriorityQueue T) :=
  ((q.lanes priority).trySend item).map fun c => ⟨Function.update q.lanes priority c⟩

def recv (alive : Bool) (q : PriorityQueue T) : Option (Option T × PriorityQueue T) :=
  (Lanes.race alive [.realtime, .high, .normal, .low, .background] q.lanes).map fun (answer, lanes) =>
    (answer, ⟨lanes⟩)

def asLanes : LaneQueue (PriorityQueue T) (TaskPriority × T) TaskPriority T where
  lanes := lanes
  first := .realtime
  rest := [.high, .normal, .low, .background]
  nodup := by decide
  complete priority := by cases priority <;> decide
  route := Prod.fst
  item := Prod.snd
  trySend q i := q.trySend i.1 i.2
  recv := recv
  trySend_lanes q i := by
    rw [trySend, Option.map_map]
    rfl
  recv_lanes alive q := by
    rw [recv, Option.map_map]
    exact Option.map_id'

end PriorityQueue

/-- Dropping the senders of a queue loses nothing exactly when what is left is in the lane that
is served first: the control lane of a node queue, the realtime lane of a priority queue. -/
theorem closing_loses_nothing_iff (capacity : Nat) (h : 0 < capacity) :
    (∀ events, NodeQueue.asLanes.ClosesCleanly (NodeQueue.asLanes.history (nodeQueue capacity h) events) ↔
      NodeQueue.asLanes.OnlyFirst (NodeQueue.asLanes.history (nodeQueue capacity h) events).state) ∧
    ∀ (T : Type) events,
      PriorityQueue.asLanes.ClosesCleanly (PriorityQueue.asLanes.history (priorityQueue T capacity h) events) ↔
        PriorityQueue.asLanes.OnlyFirst
          (PriorityQueue.asLanes.history (priorityQueue T capacity h) events).state :=
  ⟨fun events => NodeQueue.asLanes.closesCleanly_iff rfl events,
    fun _ events => PriorityQueue.asLanes.closesCleanly_iff rfl events⟩

def packetsServed : List (QueueEvent Packet) :=
  [.send (stubPacket 0), .send ((stubPacket 1).tag .control), .recv, .recv, .send ((stubPacket 2).tag .control)]

def overtakenTask : List (QueueEvent (TaskPriority × Nat)) := [.send (.low, 0), .send (.realtime, 1), .recv]

theorem closing_loses_nothing_iff_served :
    (NodeQueue.asLanes.history (nodeQueue 8 (by decide)) packetsServed).received = [(stubPacket 1).tag .control, stubPacket 0] ∧
      NodeQueue.asLanes.ClosesCleanly (NodeQueue.asLanes.history (nodeQueue 8 (by decide)) packetsServed) ∧
      (PriorityQueue.asLanes.history (priorityQueue Nat 8 (by decide)) overtakenTask).received = [1] ∧
      ¬ PriorityQueue.asLanes.ClosesCleanly
        (PriorityQueue.asLanes.history (priorityQueue Nat 8 (by decide)) overtakenTask) := by
  obtain ⟨hnode, hpriority⟩ := closing_loses_nothing_iff 8 (by decide)
  refine ⟨rfl, (hnode packetsServed).mpr fun l hl => ?_, rfl, fun hclean => ?_⟩
  · rcases List.mem_cons.mp hl with rfl | hl
    · rfl
    · rw [List.mem_singleton.mp hl]
      rfl
  · have hempty := (hpriority Nat overtakenTask).mp hclean .low (by decide)
    cases hempty

theorem bulk_packet_lost : ¬ NodeQueue.asLanes.ClosesCleanly
    (NodeQueue.asLanes.history (nodeQueue 8 (by decide)) [.send (Packet.new ⟨0⟩ [] (Metadata.new ⟨0⟩ ⟨0⟩ ⟨0⟩ 0))]) := by
  intro hclean
  have hempty := hclean.onlyWhenEmpty 0 _ rfl .bulk
  cases hempty

end Nyarix
