import Mathlib.Algebra.Group.Nat.Defs
import Mathlib.Data.List.Basic

/-! The packet: identifier, payload, metadata and classification tags. Instants and
durations are nanoseconds. -/

namespace Nyarix

structure NodeId where
  uuid : BitVec 128
  deriving DecidableEq, Repr

structure PacketId where
  uuid : BitVec 128
  deriving DecidableEq, Repr

structure SessionId where
  uuid : BitVec 128
  deriving DecidableEq, Repr

structure FlowId where
  uuid : BitVec 128
  deriving DecidableEq, Repr

structure StreamId where
  uuid : BitVec 128
  deriving DecidableEq, Repr

structure RouteId where
  uuid : BitVec 128
  deriving DecidableEq, Repr

structure ModuleId where
  uuid : BitVec 128
  deriving DecidableEq, Repr

def hyphenated (uuid : BitVec 128) : String :=
  let digits := (List.range 32).map fun i => (uuid.toNat / 16 ^ (31 - i) % 16).digitChar
  String.ofList (digits.take 8 ++ '-' :: (digits.drop 8).take 4 ++ '-' :: (digits.drop 12).take 4 ++
    '-' :: (digits.drop 16).take 4 ++ '-' :: digits.drop 20)

instance : ToString NodeId := ⟨fun id => hyphenated id.uuid⟩

abbrev Instant := Nat
abbrev Duration := Nat

def u64Max : Nat := 2 ^ 64 - 1

def millis (d : Duration) : Nat := d / 1000000

structure Tags where
  bits : BitVec 32
  deriving DecidableEq, Repr

inductive Tag where
  | interactive | bulk | control | diagnostic
  | handshake | heartbeat | rekey | shutdown
  | roaming | fallback | retransmit | fragment | lastFragment
  | highPriority | lowPriority
  | flowStart | flowEnd | localOnly
  deriving DecidableEq, Repr

namespace Tags

def new : Tags := ⟨0⟩

def contains (tags mask : Tags) : Bool := tags.bits &&& mask.bits == mask.bits

def intersects (tags mask : Tags) : Bool := tags.bits &&& mask.bits != 0

def insert (tags mask : Tags) : Tags := ⟨tags.bits ||| mask.bits⟩

end Tags

def Tag.flag : Tag → Tags
  | .interactive => ⟨1 <<< 0⟩
  | .bulk => ⟨1 <<< 1⟩
  | .control => ⟨1 <<< 2⟩
  | .diagnostic => ⟨1 <<< 3⟩
  | .handshake => ⟨1 <<< 4⟩
  | .heartbeat => ⟨1 <<< 5⟩
  | .rekey => ⟨1 <<< 6⟩
  | .shutdown => ⟨1 <<< 7⟩
  | .roaming => ⟨1 <<< 8⟩
  | .fallback => ⟨1 <<< 9⟩
  | .retransmit => ⟨1 <<< 10⟩
  | .fragment => ⟨1 <<< 11⟩
  | .lastFragment => ⟨1 <<< 12⟩
  | .highPriority => ⟨1 <<< 13⟩
  | .lowPriority => ⟨1 <<< 14⟩
  | .flowStart => ⟨1 <<< 15⟩
  | .flowEnd => ⟨1 <<< 16⟩
  | .localOnly => ⟨1 <<< 17⟩

def Tags.insertTag (tags : Tags) (tag : Tag) : Tags := tags.insert tag.flag

def Tags.hasTag (tags : Tags) (tag : Tag) : Bool := tags.contains tag.flag

inductive Role where
  | client | server | relay | gateway
  deriving DecidableEq, Repr

inductive Reliability where
  | bestEffort | reliable | atMostOnce
  deriving DecidableEq, Repr

inductive PrivacyPolicy where
  | none | standard | maximum | minimal
  deriving DecidableEq, Repr

def defaultTtl : BitVec 8 := 32

structure Metadata where
  sessionId : SessionId
  flowId : FlowId
  streamId : StreamId
  routeId : RouteId
  sourceNode : Option NodeId
  destinationNode : Option NodeId
  sourceRole : Option Role
  destinationRole : Option Role
  priority : BitVec 8
  deadline : Option Instant
  mtuHint : Option (BitVec 16)
  latencyHintUs : Option (BitVec 64)
  reliability : Reliability
  createdAt : Instant
  ttl : BitVec 8
  retryCount : BitVec 8
  originModule : Option ModuleId
  trace : List NodeId
  traced : Bool
  traceDetailed : Bool
  traceTimestampsMs : List Nat
  privacyPolicy : PrivacyPolicy
  capabilityMask : BitVec 64
  deriving DecidableEq, Repr

namespace Metadata

/-- Default metadata; the fresh identifiers and the clock reading are arguments. -/
def new (session : SessionId) (flow : FlowId) (stream : StreamId) (now : Instant) : Metadata where
  sessionId := session
  flowId := flow
  streamId := stream
  routeId := ⟨0⟩
  sourceNode := none
  destinationNode := none
  sourceRole := none
  destinationRole := none
  priority := 128
  deadline := none
  mtuHint := none
  latencyHintUs := none
  reliability := .bestEffort
  createdAt := now
  ttl := defaultTtl
  retryCount := 0
  originModule := none
  trace := []
  traced := false
  traceDetailed := false
  traceTimestampsMs := []
  privacyPolicy := .none
  capabilityMask := 0

def recordHop (m : Metadata) (node : NodeId) (now : Instant) : Metadata :=
  if !m.traced then m
  else
    let m := { m with trace := m.trace ++ [node] }
    if m.traceDetailed then
      -- the elapsed time saturates at zero and its conversion at the largest u64
      let elapsedMs := min (millis (now - m.createdAt)) u64Max
      { m with traceTimestampsMs := m.traceTimestampsMs ++ [elapsedMs] }
    else m

end Metadata

structure Packet where
  id : PacketId
  payload : List UInt8
  metadata : Metadata
  tags : Tags
  deriving DecidableEq, Repr

namespace Packet

def new (id : PacketId) (payload : List UInt8) (metadata : Metadata) : Packet :=
  ⟨id, payload, metadata, Tags.new⟩

def len (p : Packet) : Nat := p.payload.length

def hasTag (p : Packet) (tag : Tag) : Bool := p.tags.hasTag tag

def tag (p : Packet) (tag : Tag) : Packet := { p with tags := p.tags.insertTag tag }

def recordHop (p : Packet) (node : NodeId) (now : Instant) : Packet :=
  { p with metadata := p.metadata.recordHop node now }

@[simp] theorem recordHop_id (p : Packet) (node : NodeId) (now : Instant) :
    (p.recordHop node now).id = p.id := rfl

end Packet
end Nyarix
