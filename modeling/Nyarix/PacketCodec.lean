import Mathlib.Data.ENat.Basic
import Mathlib.Logic.Equiv.List
import Mathlib.Tactic.DeriveEncodable
import Nyarix.Module

/-! Packets as bytes. The two instants travel as whole milliseconds, the creation as an age and the
deadline as the time that is left, and become instants again by the clock of the reader. -/

namespace Nyarix

/-- What is serialized of metadata: both instants as milliseconds from the time of encoding. -/
structure MetadataWire where
  sessionId : SessionId
  flowId : FlowId
  streamId : StreamId
  routeId : RouteId
  sourceNode : Option NodeId
  destinationNode : Option NodeId
  sourceRole : Option Role
  destinationRole : Option Role
  priority : BitVec 8
  deadline : Option Nat
  mtuHint : Option (BitVec 16)
  latencyHintUs : Option (BitVec 64)
  reliability : Reliability
  createdAt : Nat
  ttl : BitVec 8
  retryCount : BitVec 8
  originModule : Option ModuleId
  trace : List NodeId
  traced : Bool
  traceDetailed : Bool
  traceTimestampsMs : List Nat
  privacyPolicy : PrivacyPolicy
  capabilityMask : BitVec 64
  deriving DecidableEq

structure PacketWire where
  id : PacketId
  payload : List UInt8
  metadata : MetadataWire
  tags : Tags
  deriving DecidableEq

structure DecodeError where
  reason : String

structure Bincode where
  encodeToVec : PacketWire → Except String (List UInt8)
  decodeFromSlice : List UInt8 → Except DecodeError (PacketWire × Nat)

def Bincode.RoundTrips (codec : Bincode) : Prop :=
  ∀ wire, ∃ buf read, codec.encodeToVec wire = .ok buf ∧ codec.decodeFromSlice buf = .ok (wire, read)

/-- Milliseconds from the earlier instant to the later one, none if they are the other way round,
and no more than the largest 64-bit number. -/
def millisBetween (later earlier : Instant) : Nat := min (millis (later - earlier)) u64Max

def fromMillis (ms : Nat) : Duration := ms * 1000000

/-- Adding and subtracting panic outside the representable instants, of which 0 is the first. -/
def addDuration (latest instant : Instant) (d : Duration) : Unwind Instant :=
  if instant + d ≤ latest then .returned (instant + d)
  else .panicked "overflow when adding duration to instant"

def subDuration (instant : Instant) (d : Duration) : Unwind Instant :=
  if d ≤ instant then .returned (instant - d)
  else .panicked "overflow when subtracting duration from instant"

namespace Metadata

def toWire (m : Metadata) (now : Instant) : MetadataWire where
  sessionId := m.sessionId
  flowId := m.flowId
  streamId := m.streamId
  routeId := m.routeId
  sourceNode := m.sourceNode
  destinationNode := m.destinationNode
  sourceRole := m.sourceRole
  destinationRole := m.destinationRole
  priority := m.priority
  deadline := m.deadline.map fun deadline => millisBetween deadline now
  mtuHint := m.mtuHint
  latencyHintUs := m.latencyHintUs
  reliability := m.reliability
  createdAt := millisBetween now m.createdAt
  ttl := m.ttl
  retryCount := m.retryCount
  originModule := m.originModule
  trace := m.trace
  traced := m.traced
  traceDetailed := m.traceDetailed
  traceTimestampsMs := m.traceTimestampsMs
  privacyPolicy := m.privacyPolicy
  capabilityMask := m.capabilityMask

def isExpired (m : Metadata) (now : Instant) : Bool :=
  if m.ttl = 0 then true
  else
    match m.deadline with
    | some deadline => now ≥ deadline
    | none => false

end Metadata

namespace MetadataWire

def withInstants (w : MetadataWire) (deadline : Option Instant) (createdAt : Instant) : Metadata where
  sessionId := w.sessionId
  flowId := w.flowId
  streamId := w.streamId
  routeId := w.routeId
  sourceNode := w.sourceNode
  destinationNode := w.destinationNode
  sourceRole := w.sourceRole
  destinationRole := w.destinationRole
  priority := w.priority
  deadline := deadline
  mtuHint := w.mtuHint
  latencyHintUs := w.latencyHintUs
  reliability := w.reliability
  createdAt := createdAt
  ttl := w.ttl
  retryCount := w.retryCount
  originModule := w.originModule
  trace := w.trace
  traced := w.traced
  traceDetailed := w.traceDetailed
  traceTimestampsMs := w.traceTimestampsMs
  privacyPolicy := w.privacyPolicy
  capabilityMask := w.capabilityMask

def deadlineInstant (w : MetadataWire) (latest now : Instant) : Unwind (Option Instant) :=
  match w.deadline with
  | none => .returned none
  | some ms => (addDuration latest now (fromMillis ms)).bind fun deadline => .returned (some deadline)

/-- The fields come in order, so the deadline is the first of the two instants. -/
def toMetadata (w : MetadataWire) (latest now : Instant) : Unwind Metadata :=
  (w.deadlineInstant latest now).bind fun deadline =>
    (subDuration now (fromMillis w.createdAt)).bind fun createdAt => .returned (w.withInstants deadline createdAt)

end MetadataWire

namespace Packet
variable (codec : Bincode) (latest : Instant)

def toWire (p : Packet) (now : Instant) : PacketWire := ⟨p.id, p.payload, p.metadata.toWire now, p.tags⟩

def encode (p : Packet) (now : Instant) : Unwind (List UInt8) :=
  match codec.encodeToVec (p.toWire now) with
  | .ok buf => .returned buf
  | .error reason => .panicked s!"packet encoding does not fail: {reason}"

def decode (buf : List UInt8) (now : Instant) : Unwind (Except DecodeError Packet) :=
  match codec.decodeFromSlice buf with
  | .error e => .returned (.error e)
  | .ok (wire, _) =>
    (wire.metadata.toMetadata latest now).bind fun metadata =>
      .returned (.ok ⟨wire.id, wire.payload, metadata, wire.tags⟩)

end Packet

structure Handover where
  encodedAt : Instant
  decodedAt : Instant

namespace Packet
variable (codec : Bincode) (latest : Instant)

def roundTrip (p : Packet) (handover : Handover) : Unwind (Except DecodeError Packet) :=
  (p.encode codec handover.encodedAt).bind fun buf => decode codec latest buf handover.decodedAt

def lifetime (p : Packet) (now : Instant) : ℕ∞ :=
  match p.metadata.deadline with
  | none => ⊤
  | some deadline => (deadline - now : Nat)

def wholeMillis (d : Duration) : Duration := fromMillis (min (millis d) u64Max)

structure Representable (p : Packet) (handover : Handover) : Prop where
  createdAt : wholeMillis (handover.encodedAt - p.metadata.createdAt) ≤ handover.decodedAt
  deadline : ∀ deadline, p.metadata.deadline = some deadline →
    handover.decodedAt + wholeMillis (deadline - handover.encodedAt) ≤ latest

/-- What comes out of a round trip: the packet, but for the two instants. -/
structure Carries (p : Packet) (handover : Handover) (q : Packet) : Prop where
  id : q.id = p.id
  payload : q.payload = p.payload
  tags : q.tags = p.tags
  fields : q.metadata = { p.metadata with createdAt := q.metadata.createdAt, deadline := q.metadata.deadline }
  createdAt : q.metadata.createdAt = handover.decodedAt - wholeMillis (handover.encodedAt - p.metadata.createdAt)
  deadline : q.metadata.deadline = p.metadata.deadline.map fun deadline =>
    handover.decodedAt + wholeMillis (deadline - handover.encodedAt)
  expired : (∃ deadline, p.metadata.deadline = some deadline ∧ deadline ≤ handover.encodedAt) →
    q.metadata.isExpired handover.decodedAt
  lifetime : q.lifetime handover.decodedAt ≤ p.lifetime handover.encodedAt

/-- Round trips one after another, each on what the one before has returned. -/
inductive Travels : Packet → List Handover → Packet → Prop
  | here (p : Packet) : Travels p [] p
  | handover {p q r : Packet} {handover : Handover} {handovers : List Handover}
    (h : p.roundTrip codec latest handover = .returned (.ok q)) (hrest : Travels q handovers r) :
    Travels p (handover :: handovers) r

variable {codec latest}

theorem wholeMillis_le (d : Duration) : wholeMillis d ≤ d := by
  unfold wholeMillis fromMillis millis
  exact (Nat.mul_le_mul_right 1000000 (Nat.min_le_left (d / 1000000) u64Max)).trans (Nat.div_mul_le_self d 1000000)

theorem lifetime_antitone (p : Packet) {now now' : Instant} (h : now ≤ now') : p.lifetime now' ≤ p.lifetime now := by
  unfold lifetime
  split
  · exact le_rfl
  · exact Nat.cast_le.mpr (Nat.sub_le_sub_left h _)

def carried (p : Packet) (handover : Handover) : Packet :=
  { p with metadata := { p.metadata with
    createdAt := handover.decodedAt - wholeMillis (handover.encodedAt - p.metadata.createdAt)
    deadline := p.metadata.deadline.map fun deadline =>
      handover.decodedAt + wholeMillis (deadline - handover.encodedAt) } }

theorem wholeMillis_sub (later earlier : Instant) :
    fromMillis (millisBetween later earlier) = wholeMillis (later - earlier) := rfl

theorem withInstants_toWire (m : Metadata) (now : Instant) (deadline : Option Instant) (createdAt : Instant) :
    (m.toWire now).withInstants deadline createdAt = { m with deadline := deadline, createdAt := createdAt } := rfl

theorem addDuration_ok_iff (instant r : Instant) (d : Duration) :
    addDuration latest instant d = .returned r ↔ instant + d ≤ latest ∧ r = instant + d := Unwind.checked_returned_iff

theorem subDuration_ok_iff (instant r : Instant) (d : Duration) :
    subDuration instant d = .returned r ↔ d ≤ instant ∧ r = instant - d := Unwind.checked_returned_iff

theorem deadlineInstant_ok_iff (w : MetadataWire) (now : Instant) (r : Option Instant) :
    w.deadlineInstant latest now = .returned r ↔
      (∀ ms, w.deadline = some ms → now + fromMillis ms ≤ latest) ∧ r = w.deadline.map fun ms => now + fromMillis ms := by
  unfold MetadataWire.deadlineInstant
  cases w.deadline with
  | none =>
    refine ⟨fun h => ⟨fun ms hms => (by cases hms), (Unwind.returned.inj h).symm⟩, fun h => ?_⟩
    exact congrArg Unwind.returned h.2.symm
  | some ms =>
    refine (Unwind.bind_returned_iff (x := addDuration latest now (fromMillis ms))).trans ?_
    simp only [addDuration_ok_iff, Unwind.returned.injEq, Option.some.injEq, forall_eq', Option.map_some]
    constructor
    · rintro ⟨instant, ⟨hfits, rfl⟩, rfl⟩
      exact ⟨hfits, rfl⟩
    · rintro ⟨hfits, rfl⟩
      exact ⟨_, ⟨hfits, rfl⟩, rfl⟩

theorem toMetadata_ok_iff (w : MetadataWire) (now : Instant) (metadata : Metadata) :
    w.toMetadata latest now = .returned metadata ↔
      (fromMillis w.createdAt ≤ now ∧ ∀ ms, w.deadline = some ms → now + fromMillis ms ≤ latest) ∧
        metadata = w.withInstants (w.deadline.map fun ms => now + fromMillis ms) (now - fromMillis w.createdAt) := by
  unfold MetadataWire.toMetadata
  simp only [Unwind.bind_returned_iff, deadlineInstant_ok_iff, subDuration_ok_iff, Unwind.returned.injEq]
  constructor
  · rintro ⟨deadline, ⟨hlate, rfl⟩, createdAt, ⟨hearly, rfl⟩, rfl⟩
    exact ⟨⟨hearly, hlate⟩, rfl⟩
  · rintro ⟨⟨hearly, hlate⟩, rfl⟩
    exact ⟨_, ⟨hlate, rfl⟩, _, ⟨hearly, rfl⟩, rfl⟩

theorem toMetadata_toWire (p : Packet) (handover : Handover) (metadata : Metadata) :
    (p.metadata.toWire handover.encodedAt).toMetadata latest handover.decodedAt = .returned metadata ↔
      p.Representable latest handover ∧ metadata = (p.carried handover).metadata := by
  have hcreated : fromMillis (p.metadata.toWire handover.encodedAt).createdAt =
      wholeMillis (handover.encodedAt - p.metadata.createdAt) := wholeMillis_sub _ _
  have hdeadline : (p.metadata.toWire handover.encodedAt).deadline =
      p.metadata.deadline.map fun deadline => millisBetween deadline handover.encodedAt := by
    unfold Metadata.toWire
    rfl
  rw [toMetadata_ok_iff, withInstants_toWire, hcreated, hdeadline, Option.map_map]
  refine and_congr ?_ Iff.rfl
  constructor
  · rintro ⟨hearly, hlate⟩
    refine ⟨hearly, fun deadline hd => hlate _ ?_⟩
    rw [hd]
    rfl
  · rintro ⟨hearly, hlate⟩
    refine ⟨hearly, fun ms hms => ?_⟩
    obtain ⟨deadline, hd, rfl⟩ := Option.map_eq_some_iff.mp hms
    exact hlate deadline hd

theorem roundTrip_ok_iff (hcodec : codec.RoundTrips) (p q : Packet) (handover : Handover) :
    p.roundTrip codec latest handover = .returned (.ok q) ↔
      p.Representable latest handover ∧ q = p.carried handover := by
  obtain ⟨buf, read, hencode, hdecode⟩ := hcodec (p.toWire handover.encodedAt)
  have hencoded : p.encode codec handover.encodedAt = .returned buf := by
    unfold encode
    rw [hencode]
  have hdecoded : decode codec latest buf handover.decodedAt =
      ((p.metadata.toWire handover.encodedAt).toMetadata latest handover.decodedAt).bind fun metadata =>
        .returned (.ok ⟨p.id, p.payload, metadata, p.tags⟩) := by
    unfold decode
    rw [hdecode]
    rfl
  unfold roundTrip
  rw [hencoded, Unwind.bind, hdecoded, Unwind.bind_returned_iff]
  simp only [toMetadata_toWire, Unwind.returned.injEq, Except.ok.injEq]
  constructor
  · rintro ⟨metadata, ⟨hfits, rfl⟩, rfl⟩
    exact ⟨hfits, rfl⟩
  · rintro ⟨hfits, rfl⟩
    exact ⟨_, ⟨hfits, rfl⟩, rfl⟩

theorem carries_carried (p : Packet) (handover : Handover) : p.Carries handover (p.carried handover) where
  id := rfl
  payload := rfl
  tags := rfl
  fields := rfl
  createdAt := rfl
  deadline := rfl
  expired := by
    rintro ⟨deadline, hd, hpassed⟩
    have hzero : wholeMillis (deadline - handover.encodedAt) = 0 := by
      rw [Nat.sub_eq_zero_of_le hpassed]
      rfl
    unfold Metadata.isExpired carried
    rw [hd]
    simp [hzero]
  lifetime := by
    unfold Packet.lifetime carried
    cases p.metadata.deadline with
    | none => exact le_rfl
    | some deadline =>
      dsimp only [Option.map_some]
      rw [Nat.add_sub_cancel_left]
      exact Nat.cast_le.mpr (wholeMillis_le _)

theorem Travels.lifetime_le (hcodec : codec.RoundTrips) {p q : Packet} {handovers : List Handover}
    (h : Travels codec latest p handovers q) (hclock : handovers.IsChain fun a b => a.decodedAt ≤ b.encodedAt)
    {first last : Handover} (hfirst : handovers.head? = some first) (hlast : handovers.getLast? = some last) :
    q.lifetime last.decodedAt ≤ p.lifetime first.encodedAt := by
  induction h generalizing first with
  | here => cases hfirst
  | @handover p q r handover handovers hr _ ih =>
    obtain rfl := Option.some.inj hfirst
    obtain ⟨-, rfl⟩ := (roundTrip_ok_iff hcodec p q handover).mp hr
    have hstep := (p.carries_carried handover).lifetime
    cases handovers with
    | nil =>
      obtain rfl := Option.some.inj hlast
      rename_i hrest
      cases hrest
      exact hstep
    | cons next handovers =>
      rw [List.isChain_cons_cons] at hclock
      rw [List.getLast?_cons_cons] at hlast
      -- time passes between the two round trips as well
      exact (ih hclock.2 rfl hlast).trans ((lifetime_antitone _ hclock.1).trans hstep)

/-- A round trip keeps all of a packet but its two instants, which it moves by whole milliseconds, and never
lengthens what is left until its deadline; nor do any number of them. -/
theorem packet_round_trip (hcodec : codec.RoundTrips) (p : Packet) :
    (∀ handover, p.Representable latest handover →
      ∃ q, p.roundTrip codec latest handover = .returned (.ok q) ∧ p.Carries handover q) ∧
    ∀ handovers q, Travels codec latest p handovers q →
      handovers.IsChain (fun a b => a.decodedAt ≤ b.encodedAt) → ∀ first last, handovers.head? = some first →
        handovers.getLast? = some last → q.lifetime last.decodedAt ≤ p.lifetime first.encodedAt := by
  constructor
  · exact fun handover hfits =>
      ⟨p.carried handover, (roundTrip_ok_iff hcodec p _ handover).mpr ⟨hfits, rfl⟩, p.carries_carried handover⟩
  · exact fun handovers q h hclock first last hfirst hlast => h.lifetime_le hcodec hclock hfirst hlast

end Packet

instance encodableBitVec (n : Nat) : Encodable (BitVec n) := Encodable.ofLeftInverse BitVec.toFin BitVec.ofFin fun _ => rfl

instance encodableUInt8 : Encodable UInt8 := Encodable.ofLeftInverse UInt8.toBitVec UInt8.ofBitVec fun _ => rfl

deriving instance Encodable for NodeId, PacketId, SessionId, FlowId, StreamId, RouteId, ModuleId, Tags, Role, Reliability,
  PrivacyPolicy, MetadataWire, PacketWire

/-- The format that knows the bytes of these wires. Every other wire has a number, and its bytes are a mark and
so many zeros. -/
def Bincode.ofBytes (known : List (PacketWire × List UInt8)) : Bincode where
  encodeToVec wire := .ok (((known.find? (·.1 = wire)).map Prod.snd).getD (255 :: List.replicate (Encodable.encode wire) 0))
  decodeFromSlice buf :=
    match known.find? (·.2 = buf) with
    | some (wire, _) => .ok (wire, buf.length)
    | none => (Encodable.decode (buf.length - 1)).elim (.error ⟨"no packet"⟩) fun wire => .ok (wire, buf.length)

theorem Bincode.ofBytes_roundTrips {known : List (PacketWire × List UInt8)} (hmark : ∀ a ∈ known, a.2.head? ≠ some 255)
    (hdistinct : (known.map Prod.snd).Nodup) : (Bincode.ofBytes known).RoundTrips := by
  intro wire
  cases hfind : known.find? (·.1 = wire) with
  | some a =>
    have hwire : a.1 = wire := by simpa using List.find?_some hfind
    have hmem : a ∈ known := List.mem_of_find?_eq_some hfind
    refine ⟨a.2, a.2.length, by simp [ofBytes, hfind], ?_⟩
    cases hback : known.find? (·.2 = a.2) with
    | none => simpa using List.find?_eq_none.mp hback a hmem
    | some b =>
      have hbytes : b.2 = a.2 := by simpa using List.find?_some hback
      obtain rfl : b = a := List.inj_on_of_nodup_map hdistinct (List.mem_of_find?_eq_some hback) hmem hbytes
      simp [ofBytes, hback, hwire]
  | none =>
    refine ⟨_, Encodable.encode wire + 1, by simp only [ofBytes, hfind]; rfl, ?_⟩
    have hunknown : known.find? (·.2 = 255 :: List.replicate (Encodable.encode wire) 0) = none := by
      refine List.find?_eq_none.mpr fun a ha => ?_
      rw [decide_eq_true_eq]
      exact fun heq => hmark a ha (heq ▸ rfl)
    simp [ofBytes, hunknown]

def lastInstant : Instant := 2 ^ 64 * 1000000000 - 1

def stubExpiring (ms : Nat) : Packet :=
  .new ⟨7⟩ [] { Metadata.new ⟨7⟩ ⟨7⟩ ⟨7⟩ 0 with deadline := some (fromMillis ms) }

def stubWire (left age : Nat) : PacketWire :=
  let wire := (stubExpiring 0).toWire 0
  { wire with metadata := { wire.metadata with deadline := some left, createdAt := age } }

/-- Identifiers are sixteen bytes after their number; a number above 250 has a mark before its bytes. -/
def stubBytes (left : List UInt8) (age : UInt8) : List UInt8 :=
  let uuid (last : UInt8) : List UInt8 := 16 :: List.replicate 15 0 ++ [last]
  uuid 7 ++ [0] ++ uuid 7 ++ uuid 7 ++ uuid 7 ++ uuid 0 ++ [0, 0, 0, 0, 128, 1] ++ left ++ [0, 0, 0, age, 32] ++
    List.replicate 9 0

def stubBincode : Bincode :=
  .ofBytes [(stubWire 1 1, stubBytes [1] 1), (stubWire 0 1, stubBytes [0] 1),
    (stubWire u64Max 0, stubBytes (253 :: List.replicate 8 255) 0)]

example : (stubExpiring 3).encode stubBincode 1500000 = .returned (stubBytes [1] 1) := rfl

theorem roundTrips_stub : stubBincode.RoundTrips := Bincode.ofBytes_roundTrips (by decide) (by decide)

theorem packet_round_trip_twice : ∃ q q',
    (stubExpiring 3).roundTrip stubBincode lastInstant ⟨1500000, 2000000⟩ = .returned (.ok q) ∧
      (stubExpiring 3).Carries ⟨1500000, 2000000⟩ q ∧
      q.roundTrip stubBincode lastInstant ⟨2200000, 2500000⟩ = .returned (.ok q') ∧
      q.Carries ⟨2200000, 2500000⟩ q' ∧ q'.lifetime 2500000 ≤ (stubExpiring 3).lifetime 1500000 := by
  have htrips := @Packet.packet_round_trip stubBincode lastInstant roundTrips_stub
  have hfits : (stubExpiring 3).Representable lastInstant ⟨1500000, 2000000⟩ := by
    refine ⟨by decide, fun deadline hd => ?_⟩
    obtain rfl := Option.some.inj hd
    decide
  obtain ⟨q, hq, hcarries⟩ := (htrips (stubExpiring 3)).1 _ hfits
  have hdeadline : q.metadata.deadline = some 3000000 := hcarries.deadline.trans (by decide)
  have hcreated : q.metadata.createdAt = 1000000 := hcarries.createdAt.trans (by decide)
  have hfits' : q.Representable lastInstant ⟨2200000, 2500000⟩ := by
    refine ⟨hcreated ▸ by decide, fun deadline hd => ?_⟩
    obtain rfl := Option.some.inj (hdeadline.symm.trans hd)
    decide
  obtain ⟨q', hq', hcarries'⟩ := (htrips q).1 _ hfits'
  refine ⟨q, q', hq, hcarries, hq', hcarries', ?_⟩
  exact (htrips (stubExpiring 3)).2 _ q' (.handover hq (.handover hq' (.here q')))
    (List.isChain_cons_cons.mpr ⟨by decide, .singleton _⟩) ⟨1500000, 2000000⟩ ⟨2200000, 2500000⟩ rfl rfl

/-- A deadline too many milliseconds ahead for 64 bits comes nearer, though all instants are representable. -/
theorem far_deadline_comes_nearer :
    ∃ q, (stubExpiring (2 ^ 64)).roundTrip stubBincode lastInstant ⟨0, 0⟩ = .returned (.ok q) ∧
      q.metadata.deadline ≠ some (0 + fromMillis (millis (fromMillis (2 ^ 64) - 0))) := by
  refine ⟨(stubExpiring (2 ^ 64)).carried ⟨0, 0⟩, (Packet.roundTrip_ok_iff roundTrips_stub _ _ _).mpr
    ⟨⟨by decide, fun deadline hd => ?_⟩, rfl⟩, by decide⟩
  obtain rfl := Option.some.inj hd
  decide

end Nyarix
