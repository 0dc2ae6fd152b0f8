import Nyarix.Lib.Sharing
import Nyarix.PacketPool

/-! Packets behind their shared pointers. A clone of a packet is a second handle on one allocation, and
a handle that is written to leaves an allocation that others hold. -/

namespace Nyarix
open Sharing (Heap)

inductive TraceEvent where
  | created (id : PacketId)
  | cloned (id : PacketId)
  | dropped (id : PacketId)
  deriving DecidableEq, Repr

namespace Packet

def metadataMut (p : Packet) (access : Metadata → Metadata) : Packet := { p with metadata := access p.metadata }

def tagsMut (p : Packet) (access : Tags → Tags) : Packet := { p with tags := access p.tags }

def takePayload (p : Packet) : Packet × List UInt8 := (p.setPayload [], p.payload)

end Packet

def Metadata.decrementTtl (m : Metadata) : Metadata := if m.ttl = 0 then m else { m with ttl := m.ttl - 1 }

structure PacketHeap where
  inner : Heap Packet
  events : List TraceEvent

namespace PacketHeap

def empty : PacketHeap := ⟨.empty, []⟩

def fromInner (s : PacketHeap) (inner : Packet) : PacketHeap :=
  ⟨s.inner.alloc inner, s.events ++ [.created inner.id]⟩

def clone (s : PacketHeap) (h : Nat) : PacketHeap :=
  ⟨s.inner.clone h, s.events ++ (s.inner.read h).toList.map fun p => .cloned p.id⟩

/-- The event comes from the allocation, and so from its last handle only. -/
def drop (s : PacketHeap) (h : Nat) : PacketHeap :=
  ⟨s.inner.drop h, s.events ++ if s.inner.sole h then (s.inner.read h).toList.map fun p => .dropped p.id else []⟩

def resetId (s : PacketHeap) (h : Nat) (id : PacketId) : PacketHeap :=
  { s with inner := s.inner.update h fun inner => inner.resetId id }

/-- The metadata is first written over by a clone of itself, through a `make_mut` of its own. -/
def metadataMut (s : PacketHeap) (h : Nat) (access : Metadata → Metadata) : PacketHeap :=
  match s.inner.read h with
  | none => s
  | some p =>
    let inner := s.inner.update h fun inner => { inner with metadata := p.metadata }
    { s with inner := inner.update h fun inner => inner.metadataMut access }

def tagsMut (s : PacketHeap) (h : Nat) (access : Tags → Tags) : PacketHeap :=
  { s with inner := s.inner.update h fun inner => inner.tagsMut access }

def setPayload (s : PacketHeap) (h : Nat) (payload : List UInt8) : PacketHeap :=
  { s with inner := s.inner.update h fun inner => inner.setPayload payload }

def takePayload (s : PacketHeap) (h : Nat) : PacketHeap × Option (List UInt8) :=
  let inner := s.inner.makeMut h
  ({ s with inner := inner.write h fun inner => inner.takePayload.1 }, (inner.read h).map fun p => p.takePayload.2)

/-- Without a hop left the packet has been made mutable all the same. -/
def decrementTtl (s : PacketHeap) (h : Nat) : PacketHeap × Option Bool :=
  let s := s.metadataMut h Metadata.decrementTtl
  (s, (s.inner.read h).map fun p => p.metadata.ttl != 0)

end PacketHeap

inductive Access where
  | read
  | resetId (id : PacketId)
  | metadataMut (access : Metadata → Metadata)
  | tagsMut (access : Tags → Tags)
  | setPayload (payload : List UInt8)
  | takePayload
  | decrementTtl

inductive PacketCall where
  | new (inner : Packet)
  | clone (h : Nat)
  | drop (h : Nat)
  | access (h : Nat) (access : Access)

inductive Answer where
  | done
  | packet (p : Packet)
  | payload (payload : List UInt8)
  | alive (alive : Bool)
  deriving DecidableEq, Repr

namespace PacketHeap

def access (s : PacketHeap) (h : Nat) : Access → PacketHeap × Option Answer
  | .read => (s, (s.inner.read h).map .packet)
  | .resetId id => (s.resetId h id, some .done)
  | .metadataMut access => (s.metadataMut h access, some .done)
  | .tagsMut access => (s.tagsMut h access, some .done)
  | .setPayload payload => (s.setPayload h payload, some .done)
  | .takePayload => ((s.takePayload h).1, (s.takePayload h).2.map .payload)
  | .decrementTtl => ((s.decrementTtl h).1, (s.decrementTtl h).2.map .alive)

def step (s : PacketHeap) : PacketCall → PacketHeap × Option Answer
  | .new inner => (s.fromInner inner, some .done)
  | .clone h => (s.clone h, some .done)
  | .drop h => (s.drop h, some .done)
  | .access h access =>
    match s.inner.read h with
    | none => (s, none)
    | some _ => s.access h access

def run (s : PacketHeap) : List PacketCall → PacketHeap × List (Option Answer)
  | [] => (s, [])
  | call :: calls =>
    let (s, answer) := s.step call
    let (s, answers) := s.run calls
    (s, answer :: answers)

end PacketHeap

def Packet.access (p : Packet) : Access → Packet × Answer
  | .read => (p, .packet p)
  | .resetId id => (p.resetId id, .done)
  | .metadataMut access => (p.metadataMut access, .done)
  | .tagsMut access => (p.tagsMut access, .done)
  | .setPayload payload => (p.setPayload payload, .done)
  | .takePayload => (p.takePayload.1, .payload p.takePayload.2)
  | .decrementTtl => (p.metadataMut Metadata.decrementTtl, .alive (p.metadata.decrementTtl.ttl != 0))

abbrev PacketValues := List (Option Packet)

namespace PacketValues

def step (vs : PacketValues) : PacketCall → PacketValues × Option Answer
  | .new inner => (vs ++ [some inner], some .done)
  | .clone h => (vs ++ (vs.getD h none).toList.map some, some .done)
  | .drop h => (vs.set h none, some .done)
  | .access h access =>
    match vs.getD h none with
    | none => (vs, none)
    | some p => (vs.set h (some (p.access access).1), some (p.access access).2)

def run (vs : PacketValues) : List PacketCall → PacketValues × List (Option Answer)
  | [] => (vs, [])
  | call :: calls =>
    let (vs, answer) := vs.step call
    let (vs, answers) := vs.run calls
    (vs, answer :: answers)

end PacketValues

namespace PacketHeap
variable {s : PacketHeap} {h : Nat} {p : Packet}

theorem metadataMut_of_read (hread : s.inner.read h = some p) (access : Metadata → Metadata) :
    (s.metadataMut h access).inner = (s.inner.update h fun inner => { inner with metadata := p.metadata }).update h
      fun inner => inner.metadataMut access := by
  rw [metadataMut, hread]

theorem metadataMut_spec (hs : s.inner.Counted) (hread : s.inner.read h = some p) (access : Metadata → Metadata) :
    (s.metadataMut h access).inner.Counted ∧
      (s.metadataMut h access).inner.view = s.inner.view.set h (some (p.metadataMut access)) ∧
      (s.metadataMut h access).inner.read h = some (p.metadataMut access) := by
  have hfirst := hs.update h fun inner => { inner with metadata := p.metadata }
  have hreadFirst := Heap.read_update hs hread fun inner => { inner with metadata := p.metadata }
  rw [metadataMut_of_read hread]
  refine ⟨hfirst.update h _, ?_, Heap.read_update hfirst hreadFirst _⟩
  rw [Heap.view_update_of_read hfirst hreadFirst, Heap.view_update_of_read hs hread, List.set_set]

theorem access_spec (hs : s.inner.Counted) (hread : s.inner.read h = some p) (access : Access) :
    (s.access h access).1.inner.Counted ∧
      (s.access h access).1.inner.view = s.inner.view.set h (some (p.access access).1) ∧
      (s.access h access).2 = some (p.access access).2 := by
  cases access with
  | read =>
    refine ⟨hs, (Heap.set_of_getElem? (Heap.view_of_read hread)).symm, ?_⟩
    rw [PacketHeap.access, hread]
    rfl
  | resetId id => exact ⟨hs.update h _, Heap.view_update_of_read hs hread _, rfl⟩
  | metadataMut access =>
    obtain ⟨hcounted, hview, -⟩ := metadataMut_spec hs hread access
    exact ⟨hcounted, hview, rfl⟩
  | tagsMut access => exact ⟨hs.update h _, Heap.view_update_of_read hs hread _, rfl⟩
  | setPayload payload => exact ⟨hs.update h _, Heap.view_update_of_read hs hread _, rfl⟩
  | takePayload =>
    refine ⟨hs.update h _, Heap.view_update_of_read hs hread _, ?_⟩
    change (((s.inner.makeMut h).read h).map fun p => p.takePayload.2).map Answer.payload = _
    rw [Heap.read_makeMut hs, hread]
    rfl
  | decrementTtl =>
    obtain ⟨hcounted, hview, hnew⟩ := metadataMut_spec hs hread Metadata.decrementTtl
    refine ⟨hcounted, hview, ?_⟩
    change (((s.metadataMut h Metadata.decrementTtl).inner.read h).map fun p => p.metadata.ttl != 0).map Answer.alive = _
    rw [hnew]
    rfl

theorem step_spec (hs : s.inner.Counted) (call : PacketCall) : (s.step call).1.inner.Counted ∧
    ((s.step call).1.inner.view, (s.step call).2) = PacketValues.step s.inner.view call := by
  cases call with
  | new inner =>
    refine ⟨hs.alloc inner, ?_⟩
    rw [PacketValues.step, ← Heap.view_alloc hs]
    rfl
  | clone h =>
    refine ⟨hs.clone h, ?_⟩
    rw [PacketValues.step, Heap.view_getD]
    change ((s.inner.clone h).view, _) = _
    rw [Heap.view_clone hs]
    rfl
  | drop h =>
    refine ⟨hs.drop h, ?_⟩
    rw [PacketValues.step, ← Heap.view_drop]
    rfl
  | access h access =>
    rw [PacketValues.step, Heap.view_getD, step]
    cases hread : s.inner.read h with
    | none => exact ⟨hs, rfl⟩
    | some p =>
      obtain ⟨hcounted, hview, hanswer⟩ := access_spec hs hread access
      exact ⟨hcounted, by rw [hview, hanswer]⟩

theorem run_spec (hs : s.inner.Counted) (calls : List PacketCall) : (s.run calls).1.inner.Counted ∧
    ((s.run calls).1.inner.view, (s.run calls).2) = PacketValues.run s.inner.view calls := by
  induction calls generalizing s with
  | nil => exact ⟨hs, rfl⟩
  | cons call calls ih =>
    obtain ⟨hcounted, hstep⟩ := step_spec hs call
    obtain ⟨hlast, hrun⟩ := ih hcounted
    refine ⟨hlast, ?_⟩
    rw [PacketValues.run, ← hstep]
    dsimp only
    rw [← hrun]
    rfl

/-- Shared packets are as good as values: whatever is done through the handles, each of them reads and
answers as if its packet were a copy of its own. -/
theorem shared_packets_are_values (calls : List PacketCall) :
    ((empty.run calls).1.inner.view, (empty.run calls).2) = PacketValues.run [] calls :=
  (run_spec Heap.counted_empty calls).2

def created (s : PacketHeap) : Nat := s.events.countP fun event => event matches .created _

def cloned (s : PacketHeap) : Nat := s.events.countP fun event => event matches .cloned _

def dropped (s : PacketHeap) : Nat := s.events.countP fun event => event matches .dropped _

end PacketHeap

def Access.writes : Access → Bool
  | .read => false
  | _ => true

namespace PacketHeap
variable {s : PacketHeap} {h : Nat} {p : Packet}

/-- The call makes an allocation mutable that another handle holds, and so makes another one. -/
def copies (s : PacketHeap) : PacketCall → Bool
  | .access h access => access.writes && s.inner.shared h
  | _ => false

def copiesOf (s : PacketHeap) : List PacketCall → Nat
  | [] => 0
  | call :: calls => (s.copies call).toNat + (s.step call).1.copiesOf calls

theorem metadataMut_live (hs : s.inner.Counted) (hread : s.inner.read h = some p) (access : Metadata → Metadata) :
    (s.metadataMut h access).inner.live = s.inner.live + (s.inner.shared h).toNat ∧
      (s.metadataMut h access).inner.held = s.inner.held ∧ (s.metadataMut h access).events = s.events := by
  have hfirst := hs.update h fun inner => { inner with metadata := p.metadata }
  rw [metadataMut_of_read hread]
  refine ⟨?_, ?_, ?_⟩
  · -- the second `make_mut` finds the packet alone
    rw [Heap.live_update hfirst, Heap.live_update hs, Heap.shared_update hs, Bool.toNat_false, Nat.add_zero]
  · rw [Heap.held_update, Heap.held_update]
  · rw [metadataMut, hread]

theorem access_live (hs : s.inner.Counted) (hread : s.inner.read h = some p) (access : Access) :
    (s.access h access).1.inner.live = s.inner.live + (s.copies (.access h access)).toNat ∧
      (s.access h access).1.inner.held = s.inner.held ∧ (s.access h access).1.events = s.events := by
  cases access with
  | read => exact ⟨rfl, rfl, rfl⟩
  | metadataMut access => exact metadataMut_live hs hread access
  | decrementTtl => exact metadataMut_live hs hread Metadata.decrementTtl
  | resetId id => exact ⟨Heap.live_update hs h _, Heap.held_update _ h _, rfl⟩
  | tagsMut access => exact ⟨Heap.live_update hs h _, Heap.held_update _ h _, rfl⟩
  | setPayload payload => exact ⟨Heap.live_update hs h _, Heap.held_update _ h _, rfl⟩
  | takePayload => exact ⟨Heap.live_update hs h _, Heap.held_update _ h _, rfl⟩

/-- What leads from `s` to `s'` made `copies` allocations without an event of their own, each for a
clone that had one. -/
structure Balanced (s s' : PacketHeap) (copies : Nat) : Prop where
  allocations : s'.dropped + s'.inner.live + s.created = s.dropped + s.inner.live + s'.created + copies
  handles : copies + s'.inner.held + s.inner.live + s.cloned ≤ s'.cloned + s.inner.held + s'.inner.live

theorem Balanced.refl (s : PacketHeap) : Balanced s s 0 := ⟨rfl, by omega⟩

theorem balanced_fromInner (s : PacketHeap) (inner : Packet) : Balanced s (s.fromInner inner) 0 := by
  have hlive : (s.fromInner inner).inner.live = s.inner.live + 1 := Heap.live_alloc s.inner inner
  have hheld : (s.fromInner inner).inner.held = s.inner.held + 1 := Heap.held_alloc s.inner inner
  have hcreated : (s.fromInner inner).created = s.created + 1 := by simp [created, fromInner]
  have hcloned : (s.fromInner inner).cloned = s.cloned := by simp [cloned, fromInner]
  have hdropped : (s.fromInner inner).dropped = s.dropped := by simp [dropped, fromInner]
  constructor <;> omega

theorem balanced_clone (hs : s.inner.Counted) (h : Nat) : Balanced s (s.clone h) 0 := by
  have hlive : (s.clone h).inner.live = s.inner.live := Heap.live_clone hs h
  have hheld : (s.clone h).inner.held = s.inner.held + (s.inner.address h).isSome.toNat := Heap.held_clone s.inner h
  have hcreated : (s.clone h).created = s.created := by cases hread : s.inner.read h <;> simp [created, clone, hread]
  have hdropped : (s.clone h).dropped = s.dropped := by cases hread : s.inner.read h <;> simp [dropped, clone, hread]
  have hcloned : (s.clone h).cloned = s.cloned + (s.inner.address h).isSome.toNat := by
    cases ha : s.inner.address h with
    | none => simp [cloned, clone, Heap.read, ha]
    | some a =>
      obtain ⟨p, hp⟩ := Heap.read_of_address hs ha
      simp [cloned, clone, hp]
  constructor <;> omega

theorem balanced_drop (hs : s.inner.Counted) (h : Nat) : Balanced s (s.drop h) 0 := by
  have hlive : (s.drop h).inner.live + (s.inner.sole h).toNat = s.inner.live := Heap.live_drop hs h
  have hheld : (s.drop h).inner.held + (s.inner.address h).isSome.toNat = s.inner.held := Heap.held_drop s.inner h
  cases ha : s.inner.address h with
  | none =>
    have hsole : s.inner.sole h = false := by rw [Heap.sole, ha]; rfl
    have hevents : (s.drop h).events = s.events := by rw [drop, hsole]; simp
    have hdropped : (s.drop h).dropped = s.dropped := by rw [dropped, hevents, dropped]
    have hcreated : (s.drop h).created = s.created := by rw [created, hevents, created]
    have hcloned : (s.drop h).cloned = s.cloned := by rw [cloned, hevents, cloned]
    rw [hsole] at hlive
    rw [ha] at hheld
    simp only [Bool.toNat_false, Option.isSome_none] at hlive hheld
    constructor <;> omega
  | some a =>
    obtain ⟨p, hp⟩ := Heap.read_of_address hs ha
    have hcreated : (s.drop h).created = s.created := by
      cases hsole : s.inner.sole h <;> simp [created, drop, hsole, hp]
    have hcloned : (s.drop h).cloned = s.cloned := by
      cases hsole : s.inner.sole h <;> simp [cloned, drop, hsole, hp]
    have hdropped : (s.drop h).dropped = s.dropped + (s.inner.sole h).toNat := by
      cases hsole : s.inner.sole h <;> simp [dropped, drop, hsole, hp]
    rw [ha] at hheld
    simp only [Option.isSome_some, Bool.toNat_true] at hheld
    have hone : (s.inner.sole h).toNat ≤ 1 := Bool.toNat_le _
    constructor <;> omega

theorem balanced_access (hs : s.inner.Counted) (hread : s.inner.read h = some p) (access : Access) :
    Balanced s (s.access h access).1 (s.copies (.access h access)).toNat := by
  obtain ⟨hlive, hheld, hevents⟩ := access_live hs hread access
  have hcreated : (s.access h access).1.created = s.created := by rw [created, hevents, created]
  have hcloned : (s.access h access).1.cloned = s.cloned := by rw [cloned, hevents, cloned]
  have hdropped : (s.access h access).1.dropped = s.dropped := by rw [dropped, hevents, dropped]
  constructor <;> omega

theorem step_balanced (hs : s.inner.Counted) (call : PacketCall) :
    Balanced s (s.step call).1 (s.copies call).toNat := by
  cases call with
  | new inner => exact balanced_fromInner s inner
  | clone h => exact balanced_clone hs h
  | drop h => exact balanced_drop hs h
  | access h access =>
    rw [step]
    cases hread : s.inner.read h with
    | none =>
      have hshared : s.inner.shared h = false := by
        cases ha : s.inner.address h with
        | none => rw [Heap.shared, ha]; rfl
        | some a =>
          obtain ⟨p, hp⟩ := Heap.read_of_address hs ha
          rw [hp] at hread
          cases hread
      rw [copies, hshared, Bool.and_false, Bool.toNat_false]
      exact .refl s
    | some p => exact balanced_access hs hread access

theorem Balanced.trans {s' s'' : PacketHeap} {n m : Nat} (h : Balanced s s' n) (h' : Balanced s' s'' m) :
    Balanced s s'' (n + m) := by
  obtain ⟨hallocations, hhandles⟩ := h
  obtain ⟨hallocations', hhandles'⟩ := h'
  constructor <;> omega

theorem run_balanced (hs : s.inner.Counted) (calls : List PacketCall) :
    Balanced s (s.run calls).1 (s.copiesOf calls) := by
  induction calls generalizing s with
  | nil => exact .refl s
  | cons call calls ih => exact (step_balanced hs call).trans (ih (step_spec hs call).1)

/-- No packet is lost or freed twice: what was created and what was copied is what was dropped and what
still has a handle. Only the copies, at most one for each clone, have no event of their creation. -/
theorem packet_allocations (calls : List PacketCall) :
    (empty.run calls).1.dropped + (empty.run calls).1.inner.live =
        (empty.run calls).1.created + empty.copiesOf calls ∧
      empty.copiesOf calls ≤ (empty.run calls).1.cloned ∧
      (empty.run calls).1.inner.live ≤ (empty.run calls).1.inner.held := by
  obtain ⟨hallocations, hhandles⟩ := run_balanced (s := empty) Heap.counted_empty calls
  have hlive := (run_spec (s := empty) Heap.counted_empty calls).1.live_le_held
  have hempty : empty.dropped = 0 ∧ empty.inner.live = 0 ∧ empty.created = 0 ∧ empty.cloned = 0 ∧
    empty.inner.held = 0 := ⟨rfl, rfl, rfl, rfl, rfl⟩
  refine ⟨?_, ?_, hlive⟩ <;> omega

end PacketHeap
end Nyarix
