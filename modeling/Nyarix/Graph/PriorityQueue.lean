import Nyarix.Graph.Stub
import Nyarix.Lib.PriorityFifo

/-! A node queue answers every sequence of calls as one first-in first-out list for each
priority class does. -/

namespace Nyarix

def laneOrder : List Lane := [.control, .interactive, .bulk]

theorem laneOrder_nodup : laneOrder.Nodup := by decide

theorem mem_laneOrder (l : Lane) : l ∈ laneOrder := by cases l <;> decide

namespace NodeQueue

def drainLane (drained : List Packet) (c : Channel Packet) : List Packet × Channel Packet :=
  match _ : c.tryRecv with
  | some (packet, rest) => drainLane (drained ++ [packet]) rest
  | none => (drained, c)
termination_by c.buffer.length
decreasing_by
  rename_i hrecv
  rw [(Channel.tryRecv_eq_some.mp hrecv).1, List.length_cons]
  exact Nat.lt_succ_self _

def drainLoops (q : NodeQueue) : List Packet × NodeQueue :=
  let control := drainLane [] q.control
  let interactive := drainLane control.1 q.interactive
  let bulk := drainLane interactive.1 q.bulk
  (bulk.1, ⟨control.2, interactive.2, bulk.2⟩)

def call (q : NodeQueue) : PriorityFifo.Call Packet → PriorityFifo.Answer Packet × NodeQueue
  | .trySend packet =>
    match q.trySend packet with
    | some q => (.sent, q)
    | none => (.full packet, q)
  | .tryRecv =>
    match q.tryRecvPrioritized with
    | some (packet, q) => (.received (some packet), q)
    | none => (.received none, q)
  | .drain => (.drained q.drainLoops.1, q.drainLoops.2)
  | .len => (.len q.len, q)

theorem drainLane_eq (drained : List Packet) (c : Channel Packet) :
    drainLane drained c = (drained ++ c.buffer, c.drain.2) := by
  fun_induction drainLane drained c with
  | case1 drained c packet rest hrecv ih =>
    obtain ⟨hbuffer, hcapacity⟩ := Channel.tryRecv_eq_some.mp hrecv
    have hdrain : rest.drain.2 = c.drain.2 := Channel.eq_of_buffer hcapacity rfl
    rw [ih, hbuffer, hdrain, List.append_assoc, List.singleton_append]
  | case2 drained c hrecv =>
    obtain ⟨capacity, buffer, hpos, hbounded⟩ := c
    obtain rfl : buffer = [] := Channel.tryRecv_eq_none.mp hrecv
    rw [List.append_nil]
    rfl

theorem drainLoops_eq (q : NodeQueue) : q.drainLoops = q.drain := by
  unfold drainLoops
  simp only [drainLane_eq, List.nil_append]
  rfl

/-- The reference of a queue of that capacity: each list is the buffer of the lane. -/
structure Refines (capacity : Nat) (q : NodeQueue) (classes : Lane → List Packet) : Prop where
  buffer : ∀ l, (q.lane l).buffer = classes l
  capacity : ∀ l, (q.lane l).capacity = capacity

variable {capacity : Nat} {q : NodeQueue} {classes : Lane → List Packet}

theorem refines_nodeQueue (capacity : Nat) (h : 0 < capacity) : Refines capacity (nodeQueue capacity h) fun _ => [] := by
  constructor
  · intro l
    cases l <;> rfl
  · intro l
    cases l <;> rfl

theorem packets_eq (q : NodeQueue) : q.packets = laneOrder.flatMap fun l => (q.lane l).buffer := by
  simp only [laneOrder, List.flatMap_cons, List.flatMap_nil, List.append_nil]
  exact List.append_assoc _ _ _

theorem Refines.packets (h : Refines capacity q classes) : q.packets = laneOrder.flatMap classes := by
  rw [packets_eq, funext h.buffer]

theorem Refines.setLane (h : Refines capacity q classes) {l : Lane} {c : Channel Packet}
    (hcapacity : c.capacity = capacity) : Refines capacity (q.setLane l c) (Function.update classes l c.buffer) := by
  constructor
  · intro k
    rw [lane_setLane]
    by_cases hk : k = l
    · subst hk
      rw [Function.update_self, Function.update_self]
    · rw [Function.update_of_ne hk, Function.update_of_ne hk, h.buffer]
  · intro k
    rw [lane_setLane]
    by_cases hk : k = l
    · subst hk
      rw [Function.update_self, hcapacity]
    · rw [Function.update_of_ne hk, h.capacity]

theorem Refines.trySend (h : Refines capacity q classes) (packet : Packet) :
    (q.call (.trySend packet)).1 = (PriorityFifo.call laneOrder laneFor capacity classes (.trySend packet)).1 ∧
      Refines capacity (q.call (.trySend packet)).2
        (PriorityFifo.call laneOrder laneFor capacity classes (.trySend packet)).2 := by
  rw [call, PriorityFifo.call]
  cases hsend : q.trySend packet with
  | none =>
    have hfull := trySend_eq_none.mp hsend
    rw [h.buffer, h.capacity] at hfull
    rw [if_pos hfull]
    exact ⟨rfl, h⟩
  | some q' =>
    obtain ⟨c, hc, rfl⟩ := Option.map_eq_some_iff.mp hsend
    obtain ⟨hroom, hbuffer, hcapacity⟩ := Channel.trySend_eq_some.mp hc
    rw [h.buffer, h.capacity] at hroom
    rw [h.buffer] at hbuffer
    rw [h.capacity] at hcapacity
    rw [if_neg (Nat.ne_of_lt hroom), ← hbuffer]
    exact ⟨rfl, h.setLane hcapacity⟩

theorem Refines.tryRecvPrioritized (h : Refines capacity q classes) :
    (q.tryRecvPrioritized = none ∧ PriorityFifo.take laneOrder classes = none) ∨
      ∃ packet q' classes', q.tryRecvPrioritized = some (packet, q') ∧
        PriorityFifo.take laneOrder classes = some (packet, classes') ∧ Refines capacity q' classes' := by
  have hempty : ∀ l, (q.lane l).tryRecv = none → classes l = [] := by
    intro l hl
    rw [← h.buffer]
    exact Channel.tryRecv_eq_none.mp hl
  have hfirst : ∀ l packet c, (q.lane l).tryRecv = some (packet, c) →
      classes l = packet :: c.buffer ∧ Refines capacity (q.setLane l c) (Function.update classes l c.buffer) := by
    intro l packet c hl
    obtain ⟨hbuffer, hcapacity⟩ := Channel.tryRecv_eq_some.mp hl
    rw [h.buffer] at hbuffer
    rw [h.capacity] at hcapacity
    exact ⟨hbuffer, h.setLane hcapacity⟩
  simp only [laneOrder, PriorityFifo.take, NodeQueue.tryRecvPrioritized]
  cases hcontrol : q.control.tryRecv with
  | some taken =>
    obtain ⟨packet, c⟩ := taken
    obtain ⟨hlist, hnext⟩ := hfirst .control packet c hcontrol
    rw [hlist]
    exact .inr ⟨packet, _, _, rfl, rfl, hnext⟩
  | none =>
    rw [hempty .control hcontrol]
    cases hinteractive : q.interactive.tryRecv with
    | some taken =>
      obtain ⟨packet, c⟩ := taken
      obtain ⟨hlist, hnext⟩ := hfirst .interactive packet c hinteractive
      rw [hlist]
      exact .inr ⟨packet, _, _, rfl, rfl, hnext⟩
    | none =>
      rw [hempty .interactive hinteractive]
      cases hbulk : q.bulk.tryRecv with
      | some taken =>
        obtain ⟨packet, c⟩ := taken
        obtain ⟨hlist, hnext⟩ := hfirst .bulk packet c hbulk
        rw [hlist]
        exact .inr ⟨packet, _, _, rfl, rfl, hnext⟩
      | none =>
        rw [hempty .bulk hbulk]
        exact .inl ⟨rfl, rfl⟩

theorem Refines.drain (h : Refines capacity q classes) : Refines capacity q.drain.2 fun _ => [] := by
  constructor
  · intro l
    cases l <;> rfl
  · intro l
    have hcapacity := h.capacity l
    cases l <;> exact hcapacity

theorem Refines.len (h : Refines capacity q classes) : q.len = PriorityFifo.total laneOrder classes := by
  rw [len_eq, h.packets, PriorityFifo.total_eq]

theorem Refines.call (h : Refines capacity q classes) (c : PriorityFifo.Call Packet) :
    (q.call c).1 = (PriorityFifo.call laneOrder laneFor capacity classes c).1 ∧
      Refines capacity (q.call c).2 (PriorityFifo.call laneOrder laneFor capacity classes c).2 := by
  cases c with
  | trySend packet => exact h.trySend packet
  | tryRecv =>
    rw [NodeQueue.call, PriorityFifo.call]
    rcases h.tryRecvPrioritized with ⟨hrecv, htake⟩ | ⟨packet, q', classes', hrecv, htake, hnext⟩
    · rw [hrecv, htake]
      exact ⟨rfl, h⟩
    · rw [hrecv, htake]
      exact ⟨rfl, hnext⟩
  | drain =>
    rw [NodeQueue.call, PriorityFifo.call, drainLoops_eq, PriorityFifo.drain_eq laneOrder_nodup mem_laneOrder]
    exact ⟨congrArg PriorityFifo.Answer.drained h.packets, h.drain⟩
  | len =>
    rw [NodeQueue.call, PriorityFifo.call, h.len]
    exact ⟨rfl, h⟩

theorem eq_of_lanes {q q' : NodeQueue} (hbuffer : q.packets = []) (hbuffer' : q'.packets = [])
    (hcapacity : ∀ l, (q.lane l).capacity = (q'.lane l).capacity) : q = q' := by
  have hlane : ∀ l, q.lane l = q'.lane l := by
    intro l
    have hl : (q.lane l).buffer = [] := by
      rw [packets_eq] at hbuffer
      exact List.flatMap_eq_nil_iff.mp hbuffer l (mem_laneOrder l)
    have hl' : (q'.lane l).buffer = [] := by
      rw [packets_eq] at hbuffer'
      exact List.flatMap_eq_nil_iff.mp hbuffer' l (mem_laneOrder l)
    exact Channel.eq_of_buffer (hcapacity l) (hl.trans hl'.symm)
  obtain ⟨control, interactive, bulk⟩ := q
  congr 1
  · exact hlane .control
  · exact hlane .interactive
  · exact hlane .bulk

theorem takes_eq_drain (q : NodeQueue) {n : Nat} (hn : q.len ≤ n) :
    PriorityFifo.takes tryRecvPrioritized n q = q.drainLoops := by
  have hall := PriorityFifo.takes_eq (P := fun q' => ∀ l, (q'.lane l).capacity = (q.lane l).capacity)
    (fun s a t hs h => ⟨tryRecvPrioritized_eq_some h, fun l => (tryRecvPrioritized_capacity h l).trans (hs l)⟩)
    (fun s _ h => tryRecvPrioritized_eq_none.mp h) (fun l => rfl) (len_eq q ▸ hn)
  obtain ⟨htaken, hleft, hcapacity⟩ := hall
  have hempty : q.drain.2.packets = [] := rfl
  rw [drainLoops_eq]
  refine Prod.ext htaken (eq_of_lanes hleft hempty fun l => (hcapacity l).trans ?_)
  cases l <;> rfl

theorem sorted_empty : PriorityFifo.Sorted laneFor fun _ => ([] : List Packet) :=
  fun _ _ ha => (List.not_mem_nil ha).elim

theorem run_lanes (capacity : Nat) (h : 0 < capacity) (calls : List (PriorityFifo.Call Packet)) (l : Lane) :
    ∀ packet ∈ (((PriorityFifo.run NodeQueue.call (nodeQueue capacity h) calls).2).lane l).buffer,
      laneFor packet = l := by
  obtain ⟨-, hlast⟩ := PriorityFifo.run_simulates (R := Refines capacity)
    (fun q classes c h => h.call c) (refines_nodeQueue capacity h) calls
  rw [hlast.buffer l]
  exact PriorityFifo.run_sorted capacity laneOrder_nodup mem_laneOrder sorted_empty calls l

end NodeQueue

/-- From an empty queue of any capacity, every sequence of calls is answered as by one list for each
class; draining hands out what repeated receives would; and each class keeps its order, with nothing
lost or duplicated. -/
theorem node_queue_refines (capacity : Nat) (h : 0 < capacity) (calls : List (PriorityFifo.Call Packet)) :
    let queue := PriorityFifo.run NodeQueue.call (nodeQueue capacity h) calls
    let reference := PriorityFifo.run (PriorityFifo.call laneOrder laneFor capacity) (fun _ => []) calls
    queue.1 = reference.1 ∧ (∀ l, (queue.2.lane l).buffer = reference.2 l) ∧
      (∀ n, queue.2.len ≤ n → PriorityFifo.takes NodeQueue.tryRecvPrioritized n queue.2 = queue.2.drainLoops) ∧
      ∀ l, (PriorityFifo.sent queue.1).filter (laneFor · = l) =
        (PriorityFifo.handed queue.1).filter (laneFor · = l) ++ (queue.2.lane l).buffer := by
  obtain ⟨hanswers, hlast⟩ := PriorityFifo.run_simulates (R := NodeQueue.Refines capacity)
    (fun q classes c h => h.call c) (NodeQueue.refines_nodeQueue capacity h) calls
  refine ⟨hanswers, hlast.buffer, fun n hn => NodeQueue.takes_eq_drain _ hn, fun l => ?_⟩
  have haccounted := PriorityFifo.run_accounted capacity laneOrder_nodup mem_laneOrder NodeQueue.sorted_empty calls l
  rw [List.nil_append] at haccounted
  rw [hanswers, hlast.buffer l]
  exact haccounted

theorem node_queue_refines_one :
    let calls := [.trySend (stubPacket 0), .trySend (stubPacket 1), .trySend ((stubPacket 2).tag .control), .drain]
    let queue := PriorityFifo.run NodeQueue.call (nodeQueue 1 Nat.one_pos) calls
    queue.1 = (PriorityFifo.run (PriorityFifo.call laneOrder laneFor 1) (fun _ => []) calls).1 ∧
      (PriorityFifo.run (PriorityFifo.call laneOrder laneFor 1) (fun _ => []) calls).1 =
        calls.zip [.sent, .full (stubPacket 1), .sent, .drained [(stubPacket 2).tag .control, stubPacket 0]] := by
  intro calls queue
  exact ⟨(node_queue_refines 1 Nat.one_pos calls).1, rfl⟩

end Nyarix
