import Nyarix.Lib.Lanes
import Nyarix.Packet

/-! A node's input queue: one bounded lane for each priority class. -/

namespace Nyarix

inductive Lane where
  | control | interactive | bulk
  deriving DecidableEq, Repr

def laneFor (packet : Packet) : Lane :=
  if packet.tags.contains Tag.control.flag then .control
  else if packet.tags.contains Tag.interactive.flag then .interactive
  else .bulk

structure NodeQueue where
  control : Channel Packet
  interactive : Channel Packet
  bulk : Channel Packet

def nodeQueue (capacity : Nat) (h : 0 < capacity) : NodeQueue :=
  ⟨.empty capacity h, .empty capacity h, .empty capacity h⟩

namespace NodeQueue

def lane (q : NodeQueue) : Lane → Channel Packet
  | .control => q.control
  | .interactive => q.interactive
  | .bulk => q.bulk

def setLane (q : NodeQueue) : Lane → Channel Packet → NodeQueue
  | .control, c => { q with control := c }
  | .interactive, c => { q with interactive := c }
  | .bulk, c => { q with bulk := c }

/-- Append a packet to its lane; `none` when that lane is full. -/
def trySend (q : NodeQueue) (packet : Packet) : Option NodeQueue :=
  ((q.lane (laneFor packet)).trySend packet).map (q.setLane (laneFor packet))

def tryRecvPrioritized (q : NodeQueue) : Option (Packet × NodeQueue) :=
  match q.control.tryRecv with
  | some (packet, c) => some (packet, { q with control := c })
  | none =>
    match q.interactive.tryRecv with
    | some (packet, c) => some (packet, { q with interactive := c })
    | none => q.bulk.tryRecv.map fun (packet, c) => (packet, { q with bulk := c })

/-- Poll `recv`, while a sender is alive or not; `none` while the call has to wait. -/
def recv (alive : Bool) (q : NodeQueue) : Option (Option Packet × NodeQueue) :=
  (Lanes.race alive [.control, .interactive, .bulk] q.lane).map fun (answer, lanes) =>
    (answer, ⟨lanes .control, lanes .interactive, lanes .bulk⟩)

def len (q : NodeQueue) : Nat :=
  q.control.buffer.length + q.interactive.buffer.length + q.bulk.buffer.length

def packets (q : NodeQueue) : List Packet :=
  q.control.buffer ++ q.interactive.buffer ++ q.bulk.buffer

def drain (q : NodeQueue) : List Packet × NodeQueue :=
  (q.packets, ⟨q.control.drain.2, q.interactive.drain.2, q.bulk.drain.2⟩)

theorem lane_setLane (q : NodeQueue) (l : Lane) (c : Channel Packet) :
    (q.setLane l c).lane = Function.update q.lane l c := by
  funext k
  cases l <;> cases k <;> rfl

theorem len_eq (q : NodeQueue) : q.len = q.packets.length := by
  simp only [len, packets, List.length_append]

theorem trySend_eq_some {q q' : NodeQueue} {packet : Packet} (h : q.trySend packet = some q') :
    q'.packets.Perm (packet :: q.packets) ∧
      (q.lane (laneFor packet)).buffer.length < (q.lane (laneFor packet)).capacity := by
  simp only [trySend, Option.map_eq_some_iff] at h
  obtain ⟨c, hc, rfl⟩ := h
  obtain ⟨hroom, hb, -⟩ := Channel.trySend_eq_some.mp hc
  refine ⟨?_, hroom⟩
  cases hl : laneFor packet <;> simp only [hl, lane] at hb <;>
    simp only [packets, setLane, hb, List.append_assoc]
  · exact List.perm_middle
  · rw [← List.append_assoc]
    exact List.perm_middle.trans (List.Perm.cons _ (by simp))
  · rw [← List.append_assoc, ← List.append_assoc]
    exact (List.perm_append_singleton _ _).trans (List.Perm.cons _ (by simp))

theorem trySend_eq_none {q : NodeQueue} {packet : Packet} :
    q.trySend packet = none ↔
      (q.lane (laneFor packet)).buffer.length = (q.lane (laneFor packet)).capacity := by
  rw [trySend, Option.map_eq_none_iff, Channel.trySend_eq_none]

theorem trySend_capacity {q q' : NodeQueue} {packet : Packet} (h : q.trySend packet = some q')
    (l : Lane) : (q'.lane l).capacity = (q.lane l).capacity := by
  simp only [trySend, Option.map_eq_some_iff] at h
  obtain ⟨c, hc, rfl⟩ := h
  have hcap := (Channel.trySend_eq_some.mp hc).2.2
  cases hl : laneFor packet <;> cases l <;> simp_all [lane, setLane]

theorem tryRecvPrioritized_eq_some {q q' : NodeQueue} {packet : Packet}
    (h : q.tryRecvPrioritized = some (packet, q')) : q.packets = packet :: q'.packets := by
  unfold tryRecvPrioritized at h
  split at h
  · rename_i p c hc
    simp only [Option.some.injEq, Prod.mk.injEq] at h
    obtain ⟨rfl, rfl⟩ := h
    simp only [packets, (Channel.tryRecv_eq_some.mp hc).1, List.cons_append]
  · rename_i hc
    split at h
    · rename_i p c hi
      simp only [Option.some.injEq, Prod.mk.injEq] at h
      obtain ⟨rfl, rfl⟩ := h
      simp only [packets, Channel.tryRecv_eq_none.mp hc, (Channel.tryRecv_eq_some.mp hi).1,
        List.nil_append, List.cons_append]
    · rename_i hi
      simp only [Option.map_eq_some_iff, Prod.mk.injEq, Prod.exists] at h
      obtain ⟨p, c, hb, rfl, rfl⟩ := h
      simp only [packets, Channel.tryRecv_eq_none.mp hc, Channel.tryRecv_eq_none.mp hi,
        (Channel.tryRecv_eq_some.mp hb).1, List.nil_append]

theorem tryRecvPrioritized_eq_none {q : NodeQueue} : q.tryRecvPrioritized = none ↔ q.packets = [] := by
  rw [packets, List.append_eq_nil_iff, List.append_eq_nil_iff, ← Channel.tryRecv_eq_none,
    ← Channel.tryRecv_eq_none, ← Channel.tryRecv_eq_none, tryRecvPrioritized]
  cases q.control.tryRecv <;> cases q.interactive.tryRecv <;> simp

theorem trySend_tryRecv {q : NodeQueue} (hq : q.packets = []) (packet : Packet) :
    ∃ q', q.trySend packet = some q' ∧ q'.tryRecvPrioritized = some (packet, q) := by
  obtain ⟨⟨n₁, b₁, h₁, hb₁⟩, ⟨n₂, b₂, h₂, hb₂⟩, ⟨n₃, b₃, h₃, hb₃⟩⟩ := q
  simp only [packets, List.append_eq_nil_iff] at hq
  obtain ⟨⟨rfl, rfl⟩, rfl⟩ := hq
  cases hl : laneFor packet <;>
    simp [trySend, tryRecvPrioritized, Channel.trySend, Channel.tryRecv, lane, setLane, hl, h₁, h₂, h₃]

theorem tryRecvPrioritized_capacity {q q' : NodeQueue} {packet : Packet}
    (h : q.tryRecvPrioritized = some (packet, q')) (l : Lane) :
    (q'.lane l).capacity = (q.lane l).capacity := by
  unfold tryRecvPrioritized at h
  split at h
  · rename_i p c hc
    simp only [Option.some.injEq, Prod.mk.injEq] at h
    obtain ⟨rfl, rfl⟩ := h
    cases l <;> first | rfl | exact (Channel.tryRecv_eq_some.mp hc).2
  · split at h
    · rename_i p c hi
      simp only [Option.some.injEq, Prod.mk.injEq] at h
      obtain ⟨rfl, rfl⟩ := h
      cases l <;> first | rfl | exact (Channel.tryRecv_eq_some.mp hi).2
    · simp only [Option.map_eq_some_iff, Prod.mk.injEq, Prod.exists] at h
      obtain ⟨p, c, hb, rfl, rfl⟩ := h
      cases l <;> first | rfl | exact (Channel.tryRecv_eq_some.mp hb).2

theorem lane_le_len (q : NodeQueue) (l : Lane) : (q.lane l).buffer.length ≤ q.len := by
  cases l <;> simp only [lane, len] <;> omega

def asLanes : LaneQueue NodeQueue Packet Lane Packet where
  lanes := lane
  first := .control
  rest := [.interactive, .bulk]
  nodup := by decide
  complete l := by cases l <;> decide
  route := laneFor
  item := id
  trySend := trySend
  recv := recv
  trySend_lanes q packet := by
    rw [trySend, Option.map_map, Lanes.trySend]
    exact congrArg (Option.map · _) (funext fun c => lane_setLane q _ c)
  recv_lanes alive q := by
    rw [recv, Option.map_map]
    cases Lanes.race alive [.control, .interactive, .bulk] q.lane with
    | none => rfl
    | some r => exact congrArg some (Prod.ext rfl (funext fun l => by cases l <;> rfl))

end NodeQueue
end Nyarix
