import Nyarix.Lib.Unwinding
import Nyarix.Packet

/-! The packet pool: packets are handed out, written to by their users and taken back. A packet taken
back keeps what was written into its metadata and tags. -/

namespace Nyarix

structure Fresh where
  id : PacketId
  session : SessionId
  flow : FlowId
  stream : StreamId
  now : Instant

def Fresh.packet (fresh : Fresh) : Packet := .new fresh.id [] (.new fresh.session fresh.flow fresh.stream fresh.now)

namespace Packet

def setPayload (p : Packet) (payload : List UInt8) : Packet := { p with payload := payload }

def resetId (p : Packet) (id : PacketId) : Packet := { p with id := id }

end Packet

structure PacketPool where
  inner : List Packet
  maxSize : Nat

namespace PacketPool

def new (maxSize : Nat) : PacketPool := ⟨[], maxSize⟩

def acquire (pool : PacketPool) (fresh : Fresh) : PacketPool × Packet :=
  match pool.inner with
  | [] => (pool, fresh.packet)
  | packet :: inner => ({ pool with inner := inner }, packet)

def release (pool : PacketPool) (packet : Packet) (newId : PacketId) : PacketPool :=
  let packet := (packet.setPayload []).resetId newId
  if pool.inner.length < pool.maxSize then { pool with inner := packet :: pool.inner } else pool

def available (pool : PacketPool) : Nat := pool.inner.length

def clear (pool : PacketPool) : PacketPool := { pool with inner := [] }

end PacketPool

inductive PacketWrite where
  | payload (payload : List UInt8)
  | metadata (metadata : Metadata)
  | tags (tags : Tags)
  | resetId (id : PacketId)

def Packet.write (p : Packet) : PacketWrite → Packet
  | .payload payload => p.setPayload payload
  | .metadata metadata => { p with metadata := metadata }
  | .tags tags => { p with tags := tags }
  | .resetId id => p.resetId id

/-- A call to the pool, or a user's write or copy. A packet goes by its place among those handed out
and copied so far. -/
inductive PoolCall where
  | acquire (fresh : Fresh)
  | write (place : Nat) (write : PacketWrite)
  | clone (place : Nat)
  | release (place : Nat) (newId : PacketId)
  | clear

/-- The pool and the packets in use; a released packet leaves its place empty. -/
structure PoolUse where
  pool : PacketPool
  held : List (Option Packet)

namespace PoolUse

def start (maxSize : Nat) : PoolUse := ⟨.new maxSize, []⟩

def step (u : PoolUse) : PoolCall → PoolUse × List (Instant × Packet)
  | .acquire fresh =>
    let (pool, packet) := u.pool.acquire fresh
    (⟨pool, u.held ++ [some packet]⟩, [(fresh.now, packet)])
  | .write place write => (⟨u.pool, u.held.modify place (Option.map (·.write write))⟩, [])
  | .clone place => (⟨u.pool, u.held ++ [u.held.getD place none]⟩, [])
  | .release place newId =>
    match u.held.getD place none with
    | none => (u, [])
    | some packet => (⟨u.pool.release packet newId, u.held.set place none⟩, [])
  | .clear => (⟨u.pool.clear, u.held⟩, [])

def acquired (u : PoolUse) (calls : List PoolCall) : List (Instant × Packet) := Unwinding.outputs step u calls

def Constructs (u : PoolUse) : PoolCall → Prop
  | .acquire _ => u.pool.available = 0
  | _ => True

def NeverRecycles (u : PoolUse) (calls : List PoolCall) : Prop := Unwinding.Along step Constructs u calls

/-- The packet is as a new one, but for generated identifiers. -/
def LooksNew (acquisition : Instant × Packet) : Prop :=
  ∃ id session flow stream, acquisition.2 = .new id [] (.new session flow stream acquisition.1)

end PoolUse

def PoolCall.isPoolCall : PoolCall → Bool
  | .write _ _ => false
  | _ => true

namespace PoolUse

/-- The acquired packets look new, and are the same whatever the users write. -/
structure Forgets (u : PoolUse) (calls : List PoolCall) : Prop where
  looksNew : ∀ acquisition ∈ u.acquired calls, LooksNew acquisition
  indistinct : ∀ calls', calls'.filter PoolCall.isPoolCall = calls.filter PoolCall.isPoolCall →
    u.acquired calls' = u.acquired calls

section Step
variable {u : PoolUse} {fresh : Fresh} {packet : Packet} {inner : List Packet} {place : Nat} {newId : PacketId}

theorem step_acquire_nil (h : u.pool.inner = []) :
    u.step (.acquire fresh) = (⟨u.pool, u.held ++ [some fresh.packet]⟩, [(fresh.now, fresh.packet)]) := by
  simp only [step, PacketPool.acquire, h]

theorem step_acquire_cons (h : u.pool.inner = packet :: inner) :
    u.step (.acquire fresh) = (⟨{ u.pool with inner := inner }, u.held ++ [some packet]⟩, [(fresh.now, packet)]) := by
  simp only [step, PacketPool.acquire, h]

theorem step_release_none (h : u.held.getD place none = none) : u.step (.release place newId) = (u, []) := by
  simp only [step, h]

theorem step_release_some (h : u.held.getD place none = some packet) :
    u.step (.release place newId) = (⟨u.pool.release packet newId, u.held.set place none⟩, []) := by
  simp only [step, h]

theorem step_release_silent (u : PoolUse) (place : Nat) (newId : PacketId) : (u.step (.release place newId)).2 = [] := by
  cases h : u.held.getD place none with
  | none => rw [step_release_none h]
  | some packet => rw [step_release_some h]

end Step

structure SameShape (u u' : PoolUse) : Prop where
  available : u.pool.available = u'.pool.available
  maxSize : u.pool.maxSize = u'.pool.maxSize
  held : u.held.map Option.isSome = u'.held.map Option.isSome

variable {u u' : PoolUse}

theorem SameShape.refl (u : PoolUse) : u.SameShape u := ⟨rfl, rfl, rfl⟩

theorem SameShape.isSome (h : u.SameShape u') (place : Nat) :
    (u.held.getD place none).isSome = (u'.held.getD place none).isSome := by
  have hget : (u.held.map Option.isSome)[place]? = (u'.held.map Option.isSome)[place]? := by rw [h.held]
  rw [List.getElem?_map, List.getElem?_map] at hget
  rw [List.getD_eq_getElem?_getD, List.getD_eq_getElem?_getD]
  cases hplace : u.held[place]? with
  | none =>
    rw [hplace] at hget
    rw [Option.map_eq_none_iff.mp hget.symm]
  | some packet =>
    rw [hplace] at hget
    obtain ⟨packet', hplace', hsome⟩ := Option.map_eq_some_iff.mp hget.symm
    rw [hplace']
    exact hsome.symm

theorem SameShape.write (h : u.SameShape u') (place : Nat) (write : PacketWrite) :
    (u.step (.write place write)).1.SameShape u' where
  available := h.available
  maxSize := h.maxSize
  held := by
    rw [← h.held]
    apply List.ext_getElem
    · simp only [step, List.length_map, List.length_modify]
    · intro k hk hk'
      simp only [step, List.getElem_map, List.getElem_modify]
      split_ifs
      · exact Option.isSome_map
      · rfl

theorem SameShape.step (h : u.SameShape u') {call : PoolCall} (hcall : call.isPoolCall = true) :
    (u.step call).1.SameShape (u'.step call).1 := by
  have havailable : u.pool.inner.length = u'.pool.inner.length := h.available
  cases call with
  | acquire fresh =>
    have hheld : ∀ packet packet', (u.held ++ [some packet]).map Option.isSome =
        (u'.held ++ [some packet']).map Option.isSome := by
      intro packet packet'
      rw [List.map_append, List.map_append, h.held]
      rfl
    cases hinner : u.pool.inner with
    | nil =>
      rw [hinner] at havailable
      have hinner' : u'.pool.inner = [] := List.length_eq_zero_iff.mp havailable.symm
      rw [step_acquire_nil hinner, step_acquire_nil hinner']
      exact ⟨h.available, h.maxSize, hheld _ _⟩
    | cons packet inner =>
      -- both pools have a packet, or neither has
      obtain ⟨packet', inner', hinner'⟩ := List.exists_cons_of_length_eq_add_one (havailable.symm.trans (by rw [hinner]; rfl))
      rw [hinner, hinner'] at havailable
      rw [step_acquire_cons hinner, step_acquire_cons hinner']
      exact ⟨Nat.succ.inj havailable, h.maxSize, hheld _ _⟩
  | write place write => cases hcall
  | clone place =>
    refine ⟨h.available, h.maxSize, ?_⟩
    simp only [PoolUse.step, List.map_append, List.map_cons, List.map_nil, h.held, h.isSome place]
  | release place newId =>
    have hplace := h.isSome place
    cases hpacket : u.held.getD place none with
    | none =>
      rw [hpacket] at hplace
      have hpacket' : u'.held.getD place none = none := Option.not_isSome_iff_eq_none.mp fun hsome => by
        rw [← hplace] at hsome
        cases hsome
      rw [step_release_none hpacket, step_release_none hpacket']
      exact h
    | some packet =>
      rw [hpacket] at hplace
      obtain ⟨packet', hpacket'⟩ := Option.isSome_iff_exists.mp hplace.symm
      rw [step_release_some hpacket, step_release_some hpacket']
      have hheld : (u.held.set place none).map Option.isSome = (u'.held.set place none).map Option.isSome := by
        rw [List.map_set, List.map_set, h.held]
      simp only [PacketPool.release, h.maxSize, havailable]
      split_ifs
      · exact ⟨congrArg (· + 1) havailable, rfl, hheld⟩
      · exact ⟨h.available, h.maxSize, hheld⟩
  | clear => exact ⟨rfl, h.maxSize, h.held⟩

theorem unwinds : Unwinding.Unwinds step PoolCall.isPoolCall Constructs SameShape where
  silent u call hcall := by
    cases call with
    | write place write => exact ⟨rfl, trivial⟩
    | _ => cases hcall
  hidden {u u' call} h hcall := by
    cases call with
    | write place write => exact h.write place write
    | _ => cases hcall
  shown h hcall := h.step hcall
  guarded {u u' call} h _ := by
    cases call with
    | acquire fresh => rw [Constructs, Constructs, h.available]
    | _ => exact Iff.rfl
  agree {u u' call} h hcall hguard := by
    cases call with
    | acquire fresh =>
      have hinner : u.pool.inner = [] := List.length_eq_zero_iff.mp hguard
      have hinner' : u'.pool.inner = [] := List.length_eq_zero_iff.mp (h.available.symm.trans hguard)
      rw [step_acquire_nil hinner, step_acquire_nil hinner']
    | write place write => cases hcall
    | clone place => rfl
    | release place newId => rw [step_release_silent, step_release_silent]
    | clear => rfl

theorem acquired_of_neverRecycles {calls : List PoolCall} (h : u.NeverRecycles calls) :
    ∀ acquisition ∈ u.acquired calls, LooksNew acquisition := by
  induction calls generalizing u with
  | nil => exact List.forall_mem_nil _
  | cons call calls ih =>
    obtain ⟨hcall, hcalls⟩ := h
    refine List.forall_mem_append.mpr ⟨?_, ih hcalls⟩
    cases call with
    | acquire fresh =>
      rw [step_acquire_nil (List.length_eq_zero_iff.mp hcall)]
      exact List.forall_mem_singleton.mpr ⟨fresh.id, fresh.session, fresh.flow, fresh.stream, rfl⟩
    | release place newId =>
      rw [step_release_silent]
      exact List.forall_mem_nil _
    | _ => exact List.forall_mem_nil _

def mark (tags : Tags) : List PoolCall → List PoolCall
  | [] => []
  | .release place newId :: calls => .write place (.tags tags) :: .release place newId :: mark tags calls
  | call :: calls => call :: mark tags calls

theorem filter_mark (tags : Tags) (calls : List PoolCall) :
    (mark tags calls).filter PoolCall.isPoolCall = calls.filter PoolCall.isPoolCall := by
  induction calls with
  | nil => rfl
  | cons call calls ih =>
    cases call with
    | write place write => exact ih
    | _ => exact congrArg (_ :: ·) ih

theorem acquired_cons_silent {call : PoolCall} (h : (u.step call).2 = []) (calls : List PoolCall) :
    u.acquired (call :: calls) = (u.step call).1.acquired calls := by
  rw [acquired, Unwinding.outputs, h, List.nil_append, acquired]

theorem acquired_cons_made {fresh : Fresh} (h : u.pool.inner = []) (calls : List PoolCall) :
    u.acquired (.acquire fresh :: calls) =
      (fresh.now, fresh.packet) :: (u.step (.acquire fresh)).1.acquired calls := by
  rw [acquired, Unwinding.outputs, step_acquire_nil h]
  rfl

theorem acquired_cons_recycled {fresh : Fresh} {packet : Packet} {inner : List Packet}
    (h : u.pool.inner = packet :: inner) (calls : List PoolCall) :
    u.acquired (.acquire fresh :: calls) = (fresh.now, packet) :: (u.step (.acquire fresh)).1.acquired calls := by
  rw [acquired, Unwinding.outputs, step_acquire_cons h]
  rfl

def Marked (tags : Tags) (u : PoolUse) : Prop := ∀ packet ∈ u.pool.inner, packet.tags = tags

theorem Marked.release {tags : Tags} (h : u.Marked tags) (place : Nat) (newId : PacketId) :
    ((u.step (.write place (.tags tags))).1.step (.release place newId)).1.Marked tags := by
  cases hheld : (u.step (.write place (.tags tags))).1.held.getD place none with
  | none =>
    rw [step_release_none hheld]
    exact h
  | some packet =>
    rw [step_release_some hheld]
    have htags : packet.tags = tags := by
      change (u.held.modify place (Option.map (·.write (.tags tags)))).getD place none = some packet at hheld
      rw [List.getD_eq_getElem?_getD, List.getElem?_modify_eq] at hheld
      rcases hplace : u.held[place]? with _ | _ | old
      · rw [hplace] at hheld
        cases hheld
      · rw [hplace] at hheld
        cases hheld
      · rw [hplace] at hheld
        cases hheld
        rfl
    intro packet' hpacket'
    dsimp only [PacketPool.release] at hpacket'
    split_ifs at hpacket'
    · rcases List.mem_cons.mp hpacket' with rfl | hold
      · exact htags
      · exact h packet' hold
    · exact h packet' hpacket'

theorem SameShape.symm (h : u.SameShape u') : u'.SameShape u := ⟨h.available.symm, h.maxSize.symm, h.held.symm⟩

/-- Some acquisition of the run carries the mark in every marked run. -/
def ShowsMark (u : PoolUse) (calls : List PoolCall) : Prop :=
  ∃ (k : Nat) (acquisition : Instant × Packet), (u.acquired calls)[k]? = some acquisition ∧
    ∀ tags u', u.SameShape u' → u'.Marked tags →
      ∃ marked, (u'.acquired (mark tags calls))[k]? = some marked ∧ marked.2.tags = tags

theorem ShowsMark.made {fresh : Fresh} {calls : List PoolCall} (hinner : u.pool.inner = [])
    (h : (u.step (.acquire fresh)).1.ShowsMark calls) : u.ShowsMark (.acquire fresh :: calls) := by
  obtain ⟨k, acquisition, hk, hmarked⟩ := h
  refine ⟨k + 1, acquisition, ?_, fun tags u' hshape hpool => ?_⟩
  · rw [acquired_cons_made hinner]
    exact hk
  · have hinner' : u'.pool.inner = [] := by
      refine List.length_eq_zero_iff.mp (hshape.available.symm.trans ?_)
      exact List.length_eq_zero_iff.mpr hinner
    have hpool' : (u'.step (.acquire fresh)).1.Marked tags := by
      rw [step_acquire_nil hinner']
      exact hpool
    obtain ⟨marked, hmarked, htags⟩ := hmarked tags _
      (hshape.step (show PoolCall.isPoolCall (.acquire fresh) = true from rfl)) hpool'
    refine ⟨marked, ?_, htags⟩
    change (u'.acquired (.acquire fresh :: mark tags calls))[k + 1]? = some marked
    rw [acquired_cons_made hinner']
    exact hmarked

theorem showsMark_recycled {fresh : Fresh} {packet : Packet} {inner : List Packet} (hinner : u.pool.inner = packet :: inner)
    (calls : List PoolCall) : u.ShowsMark (.acquire fresh :: calls) := by
  refine ⟨0, (fresh.now, packet), ?_, fun tags u' hshape hpool => ?_⟩
  · rw [acquired_cons_recycled hinner]
    rfl
  · have hlength : u'.pool.inner.length = inner.length + 1 := by
      refine hshape.available.symm.trans ?_
      rw [PacketPool.available, hinner, List.length_cons]
    obtain ⟨packet', inner', hinner'⟩ := List.exists_cons_of_length_eq_add_one hlength
    have htags : packet'.tags = tags := hpool packet' (by rw [hinner']; exact List.mem_cons_self)
    refine ⟨(fresh.now, packet'), ?_, htags⟩
    change (u'.acquired (.acquire fresh :: mark tags calls))[0]? = _
    rw [acquired_cons_recycled hinner']
    rfl

theorem ShowsMark.release {calls : List PoolCall} {place : Nat} {newId : PacketId}
    (h : (u.step (.release place newId)).1.ShowsMark calls) : u.ShowsMark (.release place newId :: calls) := by
  obtain ⟨k, acquisition, hk, hmarked⟩ := h
  refine ⟨k, acquisition, ?_, fun tags u' hshape hpool => ?_⟩
  · rw [acquired_cons_silent (step_release_silent u place newId)]
    exact hk
  · have hwritten := (hshape.symm.write place (.tags tags)).symm
    obtain ⟨marked, hmarked, htags⟩ := hmarked tags _
      (hwritten.step (show PoolCall.isPoolCall (.release place newId) = true from rfl)) (hpool.release place newId)
    refine ⟨marked, ?_, htags⟩
    rw [mark, acquired_cons_silent rfl, acquired_cons_silent (step_release_silent _ place newId)]
    exact hmarked

theorem showsMark_of_recycles {calls : List PoolCall} (h : ¬ u.NeverRecycles calls) : u.ShowsMark calls := by
  induction calls generalizing u with
  | nil => exact absurd trivial h
  | cons call calls ih =>
    have hlater : u.Constructs call → ¬ (u.step call).1.NeverRecycles calls := fun hcall hcalls => h ⟨hcall, hcalls⟩
    cases call with
    | acquire fresh =>
      cases hinner : u.pool.inner with
      | nil => exact (ih (hlater (List.length_eq_zero_iff.mpr hinner))).made hinner
      -- a packet out of the pool carries the mark in the other run
      | cons packet inner => exact showsMark_recycled hinner calls
    | write place write =>
      obtain ⟨k, acquisition, hk, hmarked⟩ := ih (hlater trivial)
      refine ⟨k, acquisition, hk, fun tags u' hshape hpool => ?_⟩
      exact hmarked tags (u'.step (.write place write)).1 ((hshape.write place write).symm.write place write).symm hpool
    | clone place =>
      obtain ⟨k, acquisition, hk, hmarked⟩ := ih (hlater trivial)
      refine ⟨k, acquisition, hk, fun tags u' hshape hpool => ?_⟩
      exact hmarked tags (u'.step (.clone place)).1 (hshape.step rfl) hpool
    | release place newId => exact (ih (hlater trivial)).release
    | clear =>
      obtain ⟨k, acquisition, hk, hmarked⟩ := ih (hlater trivial)
      refine ⟨k, acquisition, hk, fun tags u' hshape hpool => ?_⟩
      exact hmarked tags (u'.step .clear).1 (hshape.step rfl) (List.forall_mem_nil _)

/-- The pool forgets what its users write exactly as long as every packet it hands out is made for the call. -/
theorem packet_pool_forgets_iff (maxSize : Nat) (calls : List PoolCall) :
    (start maxSize).Forgets calls ↔ (start maxSize).NeverRecycles calls := by
  constructor
  · intro h
    by_contra hrecycles
    obtain ⟨k, acquisition, hk, hmarked⟩ := showsMark_of_recycles hrecycles
    -- a mark that the packet does not carry
    have hne : acquisition.2.tags ≠ ⟨acquisition.2.tags.bits + 1⟩ := fun heq => by
      have hbits : acquisition.2.tags.bits = acquisition.2.tags.bits + 1 := congrArg Tags.bits heq
      exact absurd hbits (by bv_omega)
    obtain ⟨marked, hk', htags⟩ := hmarked ⟨acquisition.2.tags.bits + 1⟩ (start maxSize) (.refl _) (List.forall_mem_nil _)
    rw [h.indistinct _ (filter_mark _ calls), hk] at hk'
    cases hk'
    exact hne htags
  · intro h
    exact ⟨acquired_of_neverRecycles h, fun calls' hcalls => unwinds.outputs_eq (.refl _) (.refl _) hcalls h⟩

def leak (written : List PacketWrite) : List PoolCall :=
  .acquire ⟨⟨1⟩, ⟨1⟩, ⟨1⟩, ⟨1⟩, 0⟩ :: written.map (.write 0) ++
    [.release 0 ⟨2⟩, .acquire ⟨⟨3⟩, ⟨3⟩, ⟨3⟩, ⟨3⟩, 5⟩]

theorem packet_pool_leaks :
    let metadata := { Metadata.new ⟨1⟩ ⟨1⟩ ⟨1⟩ 0 with ttl := 1, capabilityMask := 7 }
    let written := leak [.tags Tag.diagnostic.flag, .metadata metadata]
    written.filter PoolCall.isPoolCall = (leak []).filter PoolCall.isPoolCall ∧
      ((start 10).acquired written)[1]? = some (5, ⟨⟨2⟩, [], metadata, Tag.diagnostic.flag⟩) ∧
      (start 10).acquired written ≠ (start 10).acquired (leak []) ∧
      ¬ ∀ acquisition ∈ (start 10).acquired written, LooksNew acquisition := by
  intro metadata written
  have hsecond : ((start 10).acquired written)[1]? = some (5, ⟨⟨2⟩, [], metadata, Tag.diagnostic.flag⟩) := rfl
  refine ⟨rfl, hsecond, fun heq => ?_, fun hnew => ?_⟩
  · have hclean : ((start 10).acquired (leak []))[1]? = some (5, ⟨⟨2⟩, [], Metadata.new ⟨1⟩ ⟨1⟩ ⟨1⟩ 0, Tags.new⟩) := rfl
    rw [heq, hclean] at hsecond
    have htags := congrArg (Packet.tags ∘ Prod.snd) (Option.some.inj hsecond)
    exact absurd htags (by decide)
  · obtain ⟨id, session, flow, stream, heq⟩ := hnew _ (List.mem_of_getElem? hsecond)
    have htags : Tag.diagnostic.flag = Tags.new := congrArg Packet.tags heq
    exact absurd htags (by decide)

end PoolUse
end Nyarix
