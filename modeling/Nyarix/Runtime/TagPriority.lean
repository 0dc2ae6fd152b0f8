import Nyarix.Graph.PriorityQueue
import Nyarix.Runtime.Priority

/-! The two classifications of packets by their tags: the lanes of a node queue, and the task priorities
of the runtime. -/

namespace Nyarix

namespace TaskPriority

def fromTags (tags : Tags) : TaskPriority :=
  if tags.intersects ((Tag.control.flag.insert Tag.handshake.flag).insert Tag.rekey.flag) then .realtime
  else if tags.contains Tag.interactive.flag then .high
  else .normal

def rank : TaskPriority → Nat
  | .realtime => 0
  | .high => 1
  | .normal => 2
  | .low => 3
  | .background => 4

end TaskPriority

def Ahead (p q : Packet) : Prop := (TaskPriority.fromTags p.tags).rank < (TaskPriority.fromTags q.tags).rank

instance instDecidableAhead (p q : Packet) : Decidable (Ahead p q) := inferInstanceAs (Decidable (_ < _))

def urgent (packet : Packet) : Bool :=
  packet.tags.intersects (Tag.handshake.flag.insert Tag.rekey.flag)

namespace Tags

theorem intersects_insert (tags mask mask' : Tags) :
    tags.intersects (mask.insert mask') ↔ tags.intersects mask ∨ tags.intersects mask' := by
  have hor : tags.bits &&& (mask.bits ||| mask'.bits) = (tags.bits &&& mask.bits) ||| (tags.bits &&& mask'.bits) :=
    BitVec.and_or_distrib_left
  have hzero : tags.bits &&& (mask.bits ||| mask'.bits) = 0 ↔
      tags.bits &&& mask.bits = 0 ∧ tags.bits &&& mask'.bits = 0 := by
    rw [hor]
    exact BitVec.or_eq_zero_iff
  simp only [intersects, insert, bne_iff_ne, ne_eq, hzero, not_and_or]

theorem intersects_flag (tags : Tags) (tag : Tag) : tags.intersects tag.flag = tags.contains tag.flag := by
  have hflag : tag.flag.bits = BitVec.twoPow 32 tag.ctorIdx := by
    cases tag <;> rfl
  have hbit : BitVec.twoPow 32 tag.ctorIdx ≠ 0#32 := by
    rw [← hflag]
    cases tag <;> decide
  rw [intersects, contains, hflag, BitVec.and_twoPow]
  split_ifs
  · rw [beq_self_eq_true, bne_iff_ne]
    exact hbit
  · rw [Bool.eq_iff_iff]
    simpa using hbit.symm

end Tags

theorem realtime_iff {tags : Tags} :
    tags.intersects ((Tag.control.flag.insert Tag.handshake.flag).insert Tag.rekey.flag) ↔
      tags.contains Tag.control.flag ∨ tags.intersects (Tag.handshake.flag.insert Tag.rekey.flag) := by
  rw [Tags.intersects_insert, Tags.intersects_insert, Tags.intersects_insert, Tags.intersects_flag, or_assoc]

theorem rank_eq (packet : Packet) : (TaskPriority.fromTags packet.tags).rank =
    match laneFor packet with
    | .control => 0
    | .interactive => if urgent packet then 0 else 1
    | .bulk => if urgent packet then 0 else 2 := by
  unfold TaskPriority.fromTags laneFor
  by_cases hcontrol : packet.tags.contains Tag.control.flag
  · rw [if_pos (realtime_iff.mpr (.inl hcontrol)), if_pos hcontrol]
    rfl
  · rw [if_neg hcontrol]
    by_cases hurgent : urgent packet
    · rw [if_pos (realtime_iff.mpr (.inr hurgent))]
      split_ifs <;> rfl
    · rw [if_neg fun h => (realtime_iff.mp h).elim hcontrol hurgent]
      split_ifs <;> rfl

namespace NodeQueue

def receive (q : NodeQueue) : Option (Packet × NodeQueue) :=
  match q.recv true with
  | some (some packet, q) => some (packet, q)
  | _ => none

theorem receive_eq (q : NodeQueue) : q.receive = q.tryRecvPrioritized := by
  unfold receive recv tryRecvPrioritized
  simp only [Lanes.race, Lanes.pollLane]
  cases hcontrol : q.control.tryRecv <;> cases hinteractive : q.interactive.tryRecv <;>
    cases hbulk : q.bulk.tryRecv <;> simp [lane, hcontrol, hinteractive, hbulk]

theorem takes_eq_packets (q : NodeQueue) :
    (PriorityFifo.takes tryRecvPrioritized q.len q).1 = q.packets ∧
      (PriorityFifo.takes receive q.len q).1 = q.packets := by
  have hrecv : receive = tryRecvPrioritized := funext receive_eq
  have htakes : (PriorityFifo.takes tryRecvPrioritized q.len q).1 = q.packets := by
    rw [takes_eq_drain q le_rfl, drainLoops_eq]
    rfl
  exact ⟨htakes, hrecv ▸ htakes⟩

/-- Repeated calls return every queued packet, and none before one that ranks strictly ahead of it. -/
structure Obeys (q : NodeQueue) (recv : NodeQueue → Option (Packet × NodeQueue)) : Prop where
  all : ((PriorityFifo.takes recv q.len q).1).Perm q.packets
  ahead : ((PriorityFifo.takes recv q.len q).1).Pairwise fun p p' => ¬ Ahead p' p

/-- No urgent packet is queued behind one that is not, in the lanes after the control lane. -/
def UrgentFirst (q : NodeQueue) : Prop :=
  (q.interactive.buffer ++ q.bulk.buffer).Pairwise fun p p' => urgent p' → urgent p

theorem not_ahead_iff {p p' : Packet} (h : laneFor p = .interactive ∧ laneFor p' ≠ .control ∨
    laneFor p = .bulk ∧ laneFor p' = .bulk) : ¬ Ahead p' p ↔ (urgent p' → urgent p) := by
  rw [Ahead, rank_eq, rank_eq]
  rcases h with ⟨hp, hp'⟩ | ⟨hp, hp'⟩
  · rw [hp]
    cases hlane : laneFor p' with
    | control => exact (hp' hlane).elim
    | interactive => cases urgent p <;> cases urgent p' <;> decide
    | bulk => cases urgent p <;> cases urgent p' <;> decide
  · rw [hp, hp']
    cases urgent p <;> cases urgent p' <;> decide

theorem not_ahead_of_control {p : Packet} (hp : laneFor p = .control) (p' : Packet) : ¬ Ahead p' p := by
  rw [Ahead, rank_eq p, hp]
  exact Nat.not_lt_zero _

theorem pairwise_packets_iff {q : NodeQueue} (hlanes : ∀ l, ∀ p ∈ (q.lane l).buffer, laneFor p = l) :
    (q.packets.Pairwise fun p p' => ¬ Ahead p' p) ↔ q.UrgentFirst := by
  have hcontrol : ∀ p ∈ q.control.buffer, ∀ p', ¬ Ahead p' p :=
    fun p hp => not_ahead_of_control (hlanes .control p hp)
  have hfirst : q.control.buffer.Pairwise fun p p' => ¬ Ahead p' p :=
    List.pairwise_of_forall_mem_list fun p hp p' _ => hcontrol p hp p'
  have hinteractive : ∀ p ∈ q.interactive.buffer, laneFor p = .interactive := hlanes .interactive
  have hbulk : ∀ p ∈ q.bulk.buffer, laneFor p = .bulk := hlanes .bulk
  have hnot : ∀ p ∈ q.interactive.buffer ++ q.bulk.buffer, laneFor p ≠ .control := by
    intro p hp h
    rcases List.mem_append.mp hp with hp | hp
    · cases (hinteractive p hp).symm.trans h
    · cases (hbulk p hp).symm.trans h
  rw [packets, List.append_assoc, List.pairwise_append, UrgentFirst, and_iff_right hfirst,
    and_iff_left fun p hp p' _ => hcontrol p hp p', List.pairwise_append, List.pairwise_append]
  refine and_congr ?_ (and_congr ?_ ?_)
  · exact List.Pairwise.iff_of_mem fun hp hp' =>
      not_ahead_iff (.inl ⟨hinteractive _ hp, hnot _ (List.mem_append_left _ hp')⟩)
  · exact List.Pairwise.iff_of_mem fun hp hp' => not_ahead_iff (.inr ⟨hbulk _ hp, hbulk _ hp'⟩)
  · exact forall₂_congr fun p hp => forall₂_congr fun p' hp' =>
      not_ahead_iff (.inl ⟨hinteractive p hp, hnot p' (List.mem_append_right _ hp')⟩)

end NodeQueue

/-- In every queue that calls lead to, packets are returned by their task priority exactly if no urgent one
is queued behind another outside the control lane. -/
theorem priority_schemes_agree_iff (capacity : Nat) (h : 0 < capacity) (calls : List (PriorityFifo.Call Packet)) :
    let q := (PriorityFifo.run NodeQueue.call (nodeQueue capacity h) calls).2
    q.Obeys NodeQueue.tryRecvPrioritized ∧ q.Obeys NodeQueue.receive ↔ q.UrgentFirst := by
  intro q
  obtain ⟨htry, hrecv⟩ := q.takes_eq_packets
  have horder := NodeQueue.pairwise_packets_iff (NodeQueue.run_lanes capacity h calls)
  constructor
  · intro hobeys
    have hahead := hobeys.1.ahead
    rw [htry] at hahead
    exact horder.mp hahead
  · intro hurgent
    have hahead := horder.mpr hurgent
    exact ⟨⟨htry ▸ List.Perm.refl _, htry ▸ hahead⟩, ⟨hrecv ▸ List.Perm.refl _, hrecv ▸ hahead⟩⟩

theorem priority_schemes_agree_iff_control :
    let q := (PriorityFifo.run NodeQueue.call (nodeQueue 8 (by decide))
      [.trySend (stubPacket 0), .trySend ((stubPacket 1).tag .control)]).2
    q.packets = [(stubPacket 1).tag .control, stubPacket 0] ∧ Ahead ((stubPacket 1).tag .control) (stubPacket 0) ∧
      q.Obeys NodeQueue.tryRecvPrioritized ∧ q.Obeys NodeQueue.receive := by
  intro q
  have hobeys := (priority_schemes_agree_iff 8 (by decide) [.trySend (stubPacket 0), .trySend ((stubPacket 1).tag .control)]).mpr
    (List.pairwise_singleton _ _)
  exact ⟨rfl, by decide, hobeys⟩

/-- A handshake packet ranks ahead of an interactive one, and is returned after it. -/
theorem handshake_waits_for_interactive :
    let q := (PriorityFifo.run NodeQueue.call (nodeQueue 8 (by decide))
      [.trySend ((stubPacket 0).tag .interactive), .trySend ((stubPacket 1).tag .handshake)]).2
    (PriorityFifo.takes NodeQueue.tryRecvPrioritized q.len q).1 =
        [(stubPacket 0).tag .interactive, (stubPacket 1).tag .handshake] ∧
      (PriorityFifo.takes NodeQueue.receive q.len q).1 =
        [(stubPacket 0).tag .interactive, (stubPacket 1).tag .handshake] ∧
      Ahead ((stubPacket 1).tag .handshake) ((stubPacket 0).tag .interactive) ∧
      ¬ q.Obeys NodeQueue.tryRecvPrioritized ∧ ¬ q.Obeys NodeQueue.receive := by
  intro q
  have hahead : Ahead ((stubPacket 1).tag .handshake) ((stubPacket 0).tag .interactive) := by
    decide
  have htry : (PriorityFifo.takes NodeQueue.tryRecvPrioritized q.len q).1 =
      [(stubPacket 0).tag .interactive, (stubPacket 1).tag .handshake] := rfl
  have hrecv : (PriorityFifo.takes NodeQueue.receive q.len q).1 =
      [(stubPacket 0).tag .interactive, (stubPacket 1).tag .handshake] := rfl
  refine ⟨htry, hrecv, hahead, fun hobeys => ?_, fun hobeys => ?_⟩
  · have hpair := hobeys.ahead
    rw [htry] at hpair
    exact (List.pairwise_cons.mp hpair).1 _ (List.mem_singleton_self _) hahead
  · have hpair := hobeys.ahead
    rw [hrecv] at hpair
    exact (List.pairwise_cons.mp hpair).1 _ (List.mem_singleton_self _) hahead

end Nyarix
