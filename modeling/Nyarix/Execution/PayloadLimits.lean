import Nyarix.Execution.Served
import Nyarix.Execution.SharedGraph

/-! No module is called with a packet over its payload limit, whatever happens to the graph between
the check and the call: each queue has the limit of the module it was made for, wherever its node and
its senders are. -/

namespace Nyarix
open Transition

theorem World.allBounded_step {M : Type} [Node M] (hstatic : StaticMetadata M) {w w' : World M} {i : TaskId} {t : Task}
    {a : Action} {limit : NodeId → Option Nat} (hw : w.graph.AllBounded limit) (hs : Step w i t a w')
    (hsend : ∀ current packet, a = .send → t.pc = .send current packet → packet.Fits (limit current)) :
    w'.graph.AllBounded limit := by
  cases step_cases hs with
  | entered | acquired | admitted | relocked | refused | joined | failed | finished | dropped => exact hw
  | @sent current packet node queue hpc hnode hq =>
    apply hw.modifyNode
    intro node' hnode'
    obtain rfl := Option.some.inj (hnode.symm.trans hnode')
    exact (hw current node hnode).trySend (hsend current packet rfl hpc) hq
  | @received current elapsed graph step hpc hr =>
    obtain ⟨node, packet, hreceives, rfl⟩ := FlowGraph.receive_receives hr
    rw [proceed_graph]
    have hserved : (node, packet) ∈ w.graph.receives current := hreceives ▸ List.mem_singleton_self _
    exact hw.modifyNode fun _ _ => (hw.receives hserved).2.processTimed hstatic packet elapsed

def QueueRef.Before (serial : Nat) : QueueRef → Prop
  | .initial _ => True
  | .created number => number < serial

theorem QueueRef.Before.mono {queue : QueueRef} {serial serial' : Nat} (h : queue.Before serial)
    (hle : serial ≤ serial') : queue.Before serial' := by
  cases queue with
  | initial => trivial
  | created number => exact Nat.lt_of_lt_of_le h hle

theorem QueueRef.Before.ne {queue : QueueRef} {serial : Nat} (h : queue.Before serial) : queue ≠ .created serial := by
  rintro rfl
  exact Nat.lt_irrefl serial h

namespace LiveWorld
variable {M : Type} [Node M]

def served (v : LiveWorld M) : SharedCall M → List (GraphNode M × Packet)
  | .borrow (.executeSequential entry packet readings) => v.world.graph.sequentialServes entry packet readings
  | .live (.walk ⟨i, .recv _⟩) =>
    match v.world.tasks[i]?.map Task.pc with
    | some (.recv current) => v.world.graph.receives current
    | _ => []
  | _ => []

/-- Every queue, in the graph or kept aside, and every packet on its way into one keeps the limit
given to the queue. -/
structure Within (limitOf : QueueRef → Option Nat) (v : LiveWorld M) : Prop where
  graph : v.world.graph.AllBounded fun n => limitOf (v.installed n)
  kept : ∀ k ∈ v.kept, k.node.Bounded (limitOf k.queue)
  sending : ∀ (i : TaskId) (t : Task) current packet, v.world.tasks[i]? = some t → t.pc = .send current packet →
    packet.Fits (limitOf (v.senders i))

structure Numbered (v : LiveWorld M) : Prop where
  installed : ∀ n, (v.installed n).Before v.nextSerial
  kept : ∀ k ∈ v.kept, k.queue.Before v.nextSerial
  senders : ∀ i, (v.senders i).Before v.nextSerial

variable {v v' : LiveWorld M} {limitOf : QueueRef → Option Nat} {i : TaskId} {t : Task}

theorem Within.stepped (hstatic : StaticMetadata M) (hv : v.Within limitOf) {a : Action} {w : World M}
    (ht : v.world.tasks[i]? = some t) (hs : World.Step v.world i t a w) (hadmission : ∀ now, a ≠ .admission now)
    (hsend : ∀ current packet, a = .send → t.pc = .send current packet → v.installed current = v.senders i) :
    Within limitOf { v with world := w } where
  graph := World.allBounded_step hstatic hv.graph hs fun current packet ha hpc =>
    hsend current packet ha hpc ▸ hv.sending i t current packet ht hpc
  kept := hv.kept
  sending k u current packet hk hu := by
    rcases World.atQueue_of_step hs hk (by rw [hu]; trivial) with ⟨-, harrives⟩ | ⟨-, u₀, hu₀, hpc₀⟩
    · rw [hu] at harrives
      cases harrives with
      | @admitted _ _ now => exact absurd rfl (hadmission now)
    · exact hv.sending k u₀ current packet hu₀ (hpc₀.trans hu)

theorem Within.admitted (hstatic : StaticMetadata M) (hv : v.Within limitOf) {a : Action} {w : World M}
    {current : NodeId} {packet : Packet} {now : Instant} (ha : a = .admission now) (hpc : t.pc = .lock current packet)
    (hs : World.Step v.world i t a w) : Within limitOf
      { v with world := w, senders := Function.update v.senders i (v.installed current) } where
  graph := World.allBounded_step hstatic hv.graph hs fun _ _ hsend => by rw [hsend] at ha; cases ha
  kept := hv.kept
  sending k u current' packet' hk hu := by
    dsimp only
    rcases World.atQueue_of_step hs hk (by rw [hu]; trivial) with ⟨rfl, harrives⟩ | ⟨hki, u₀, hu₀, hpc₀⟩
    · rw [Function.update_self]
      rw [hu] at harrives
      cases harrives with
      | admitted hpc' h =>
        rw [hpc] at hpc'
        cases hpc'
        obtain ⟨node, hnode, hcheck, rfl⟩ := FlowGraph.admission_eq_ok h
        have hfits : packet.Fits node.payloadLimit := GraphNode.fits_of_checkPayloadLimit hcheck
        rw [(hv.graph current node hnode).declares] at hfits
        exact hfits
    · rw [Function.update_of_ne hki]
      exact hv.sending k u₀ current' packet' hu₀ (hpc₀.trans hu)

theorem Within.leave (hv : v.Within limitOf) (t' : Task) {kept : List (KeptNode M)} {w : World M}
    (hkept : ∀ k ∈ kept, k.node.Bounded (limitOf k.queue)) (ht' : ¬ t'.pc.AtQueue) (hw : w.graph = v.world.graph)
    (htasks : w.tasks = v.world.tasks.set i t') : Within limitOf { v with world := w, kept := kept } where
  graph := by
    change w.graph.AllBounded _
    rw [hw]
    exact hv.graph
  kept := hkept
  sending k u current packet hk hu := by
    change w.tasks[k]? = some u at hk
    rw [htasks] at hk
    obtain ⟨-, hold⟩ := World.atQueue_of_set ht' hk (by rw [hu]; trivial)
    exact hv.sending k u current packet hold hu

theorem Within.walked (hstatic : StaticMetadata M) (hv : v.Within limitOf) {a : Action}
    (ht : v.world.tasks[i]? = some t) (h : Walked v i t a v') : v'.Within limitOf := by
  cases h with
  | stepped hs hadmission hsend => exact hv.stepped hstatic ht hs hadmission hsend
  | admitted ha hpc hs => exact hv.admitted hstatic ha hpc hs
  | @keptSent index k current packet queue hpc hk hqueue hsend =>
    refine hv.leave { t with pc := .relock current } (w := v.world.move i t (.relock current))
      (fun k' hk' => ?_) id rfl rfl
    rcases List.mem_or_eq_of_mem_set hk' with hold | rfl
    · exact hv.kept k' hold
    · have hfits := hv.sending i t current packet ht hpc
      rw [← hqueue] at hfits
      exact (hv.kept k (List.mem_of_getElem? hk)).trySend hfits hsend
  | @closed r =>
    exact hv.leave { t with pc := .done r, permit := false } (w := v.world.finish i t r) hv.kept id rfl rfl

theorem Numbered.walked (hv : v.Numbered) {a : Action} (h : Walked v i t a v') : v'.Numbered := by
  cases h with
  | stepped => exact ⟨hv.installed, hv.kept, hv.senders⟩
  | @admitted w current packet now ha hpc hs =>
    refine ⟨hv.installed, hv.kept, fun k => ?_⟩
    dsimp only
    rw [Function.update_apply]
    split_ifs
    · exact hv.installed current
    · exact hv.senders k
  | @keptSent index k current packet queue hpc hk =>
    refine ⟨hv.installed, fun k' hk' => ?_, hv.senders⟩
    rcases List.mem_or_eq_of_mem_set hk' with hold | rfl
    · exact hv.kept k' hold
    · exact hv.kept k (List.mem_of_getElem? hk)
  | closed => exact ⟨hv.installed, hv.kept, hv.senders⟩

section Edits
omit [Node M]

theorem Numbered.withGraph (hv : v.Numbered) (graph : FlowGraph M) : (v.withGraph graph).Numbered :=
  ⟨hv.installed, hv.kept, hv.senders⟩

theorem Numbered.takeOut (hv : v.Numbered) (id : NodeId) (node : GraphNode M) (keep : Bool) :
    (v.takeOut id node keep).Numbered := by
  cases keep with
  | false => exact hv
  | true =>
    refine ⟨hv.installed, fun k hk => ?_, hv.senders⟩
    rcases List.mem_append.mp hk with hold | hnew
    · exact hv.kept k hold
    · rw [List.mem_singleton.mp hnew]
      exact hv.installed id

theorem takeOut_graph (id : NodeId) (node : GraphNode M) (keep : Bool) :
    (v.takeOut id node keep).world.graph = v.world.graph := by
  cases keep <;> rfl

theorem Numbered.putFresh (hv : v.Numbered) (id : NodeId) : (v.putFresh id).Numbered where
  installed n := by
    unfold LiveWorld.putFresh
    dsimp only
    rw [Function.update_apply]
    split_ifs
    · exact Nat.lt_succ_self _
    · exact (hv.installed n).mono (Nat.le_succ _)
  kept k hk := (hv.kept k hk).mono (Nat.le_succ _)
  senders i := (hv.senders i).mono (Nat.le_succ _)

end Edits

theorem Within.withGraph (hv : v.Within limitOf) {graph : FlowGraph M}
    (hgraph : graph.AllBounded fun n => limitOf (v.installed n)) : (v.withGraph graph).Within limitOf :=
  ⟨hgraph, hv.kept, hv.sending⟩

theorem Within.takeOut (hv : v.Within limitOf) {id : NodeId} {node : GraphNode M}
    (hnode : node.Bounded (limitOf (v.installed id))) (keep : Bool) : (v.takeOut id node keep).Within limitOf := by
  cases keep with
  | false => exact hv
  | true =>
    refine ⟨hv.graph, fun k hk => ?_, hv.sending⟩
    rcases List.mem_append.mp hk with hold | hnew
    · exact hv.kept k hold
    · rw [List.mem_singleton.mp hnew]
      exact hnode

theorem Within.putFresh (hv : v.Within limitOf) (hnumbered : v.Numbered) {graph : FlowGraph M} {id : NodeId}
    {node : GraphNode M} (hnodes : graph.nodes = v.world.graph.nodes.insert id node) (hempty : node.queue.packets = []) :
    ((v.withGraph graph).putFresh id).Within
      (Function.update limitOf (.created v.nextSerial) node.payloadLimit) := by
  have hother : ∀ {queue : QueueRef}, queue.Before v.nextSerial →
      Function.update limitOf (.created v.nextSerial) node.payloadLimit queue = limitOf queue :=
    fun hqueue => Function.update_of_ne hqueue.ne _ _
  refine ⟨hv.graph.insert hnodes ?_ fun n hn => ?_, fun k hk => ?_, fun i t current packet ht hpc => ?_⟩
  · change node.Bounded (Function.update limitOf _ _ (Function.update v.installed id (.created v.nextSerial) id))
    rw [Function.update_self, Function.update_self]
    exact GraphNode.bounded_of_empty hempty
  · change Function.update limitOf _ _ (Function.update v.installed id _ n) = _
    rw [Function.update_of_ne hn]
    exact hother (hnumbered.installed n)
  · rw [hother (hnumbered.kept k hk)]
    exact hv.kept k hk
  · change packet.Fits (Function.update limitOf _ _ (v.senders i))
    rw [hother (hnumbered.senders i)]
    exact hv.sending i t current packet ht hpc

def Typed (v : LiveWorld M) : Prop := v.Numbered ∧ ∃ limitOf, v.Within limitOf

theorem Typed.withGraph (hv : v.Typed) {graph : FlowGraph M}
    (hgraph : ∀ limitOf, v.Within limitOf → graph.AllBounded fun n => limitOf (v.installed n)) :
    (v.withGraph graph).Typed := by
  obtain ⟨hnumbered, limitOf, hwithin⟩ := hv
  exact ⟨hnumbered.withGraph graph, limitOf, hwithin.withGraph (hgraph limitOf hwithin)⟩

theorem Typed.putFresh (hv : v.Typed) {graph : FlowGraph M} {id : NodeId} {node : GraphNode M}
    (hnodes : graph.nodes = v.world.graph.nodes.insert id node) (hempty : node.queue.packets = []) :
    ((v.withGraph graph).putFresh id).Typed := by
  obtain ⟨hnumbered, limitOf, hwithin⟩ := hv
  exact ⟨(hnumbered.withGraph graph).putFresh id, _, hwithin.putFresh hnumbered hnodes hempty⟩

theorem Typed.takeOut (hv : v.Typed) {id : NodeId} {node : GraphNode M}
    (hnode : ∀ limit, (∀ old, v.world.graph.node id = some old → old.Bounded limit) → node.Bounded limit)
    (keep : Bool) : (v.takeOut id node keep).Typed := by
  obtain ⟨hnumbered, limitOf, hwithin⟩ := hv
  refine ⟨hnumbered.takeOut id node keep, limitOf, hwithin.takeOut (hnode _ fun old hold => ?_) keep⟩
  exact hwithin.graph id old hold

theorem Typed.swapNode (hstatic : StaticMetadata M) (hv : v.Typed) (id : NodeId) (newModule : ArcNode M) (keep : Bool) :
    (v.apply (.swapNode id newModule keep)).Typed := by
  rcases v.world.graph.swapNode_cases id newModule with
    ⟨-, hs⟩ | ⟨old, hold, ⟨reason, hs⟩ | ⟨r, -, hs⟩⟩ <;> rw [apply, hs]
  · exact hv
  · -- `migrate` panicked: the old node stays, with its queue
    refine hv.withGraph fun limitOf hwithin => ?_
    exact hwithin.graph.insert rfl ((hwithin.graph id old hold).migrate hstatic) fun n _ => rfl
  · have hout : (v.takeOut id old.migrate.1 keep).Typed :=
      hv.takeOut (fun limit hlimit => (hlimit old hold).migrate hstatic) keep
    have hnodes : v.world.graph.nodes.insert id (.new id newModule old.migrate.1.config) =
        (v.takeOut id old.migrate.1 keep).world.graph.nodes.insert id (.new id newModule old.migrate.1.config) := by
      rw [takeOut_graph]
    exact hout.putFresh hnodes rfl

theorem Typed.remove (hv : v.Typed) {id : NodeId} {node : GraphNode M} {graph : FlowGraph M}
    (hnode : v.world.graph.node id = some node) (hnodes : graph.nodes = v.world.graph.nodes.erase id) (keep : Bool) :
    ((v.takeOut id node keep).withGraph graph).Typed := by
  have hout : (v.takeOut id node keep).Typed := hv.takeOut (fun limit hlimit => hlimit node hnode) keep
  have herased : graph.nodes = (v.takeOut id node keep).world.graph.nodes.erase id := by
    rw [takeOut_graph]
    exact hnodes
  exact hout.withGraph fun limitOf hwithin => hwithin.graph.erase herased

theorem Typed.removeNode (hv : v.Typed) (id : NodeId) (keep : Bool) : (v.apply (.removeNode id keep)).Typed := by
  cases hnode : v.world.graph.node id with
  | none =>
    rw [apply, FlowGraph.removeNode_none hnode]
    exact hv
  | some node =>
    obtain ⟨graph, hremove, hnodes⟩ := FlowGraph.removeNode_nodes hnode
    rw [apply, hremove]
    exact hv.remove hnode hnodes keep

theorem Typed.removeAndReconnect (hv : v.Typed) (id : NodeId) (keep : Bool) :
    (v.apply (.removeAndReconnect id keep)).Typed := by
  have hnodes := v.world.graph.removeAndReconnect_nodes id
  rw [apply]
  rcases hr : v.world.graph.removeAndReconnect id with ⟨graph, error | removed⟩ <;> rw [hr] at hnodes <;> dsimp only
  · refine hv.withGraph fun limitOf hwithin => ?_
    rcases hnodes with hsame | herased
    · exact hwithin.graph.of_nodes_eq hsame
    · exact hwithin.graph.erase herased
  · obtain ⟨hremoved, herased⟩ := FlowGraph.removeAndReconnect_ok hr
    exact hv.remove hremoved herased keep

theorem Typed.addKept (hv : v.Typed) (index : Nat) : (v.apply (.addKept index)).Typed := by
  obtain ⟨hnumbered, limitOf, hwithin⟩ := hv
  rw [apply]
  cases hk : v.kept[index]? with
  | none => exact ⟨hnumbered, limitOf, hwithin⟩
  | some k =>
    have hmem : k ∈ v.kept := List.mem_of_getElem? hk
    refine ⟨⟨fun n => ?_, fun k' hk' => ?_, hnumbered.senders⟩, limitOf, ?_, fun k' hk' => ?_, hwithin.sending⟩
    · dsimp only
      rw [Function.update_apply]
      split_ifs
      · exact hnumbered.kept k hmem
      · exact hnumbered.installed n
    · exact hnumbered.kept k' (List.mem_of_mem_eraseIdx hk')
    · apply hwithin.graph.insert (FlowGraph.addNode_nodes _ _)
      · dsimp only
        rw [Function.update_self]
        exact hwithin.kept k hmem
      · intro n hn
        dsimp only
        rw [Function.update_of_ne hn]
    · exact hwithin.kept k' (List.mem_of_mem_eraseIdx hk')

theorem Typed.edit (hstatic : StaticMetadata M) (hv : v.Typed) {e : LiveEdit M}
    (hgives : SharedCall.GivesEmpty (.live (.edit e))) : (v.apply e).Typed := by
  cases e with
  | swapNode id newModule keep => exact hv.swapNode hstatic id newModule keep
  | removeNode id keep => exact hv.removeNode id keep
  | removeAndReconnect id keep => exact hv.removeAndReconnect id keep
  | addNode node => exact hv.putFresh (FlowGraph.addNode_nodes _ _) hgives
  | addKept index => exact hv.addKept index
  | dropKept index =>
    obtain ⟨hnumbered, limitOf, hwithin⟩ := hv
    exact ⟨⟨hnumbered.installed, fun k hk => hnumbered.kept k (List.mem_of_mem_eraseIdx hk), hnumbered.senders⟩,
      limitOf, hwithin.graph, fun k hk => hwithin.kept k (List.mem_of_mem_eraseIdx hk), hwithin.sending⟩

theorem Typed.borrow (hstatic : StaticMetadata M) (hv : v.Typed) {b : Borrow M}
    (hgives : SharedCall.GivesEmpty (.borrow b)) : (v.borrow b).Typed := by
  cases b with
  | executeSequential entry packet readings =>
    exact hv.withGraph fun limitOf hwithin =>
      (hwithin.graph.executeSequential hstatic entry packet readings).1
  | connect edge => exact hv.withGraph fun limitOf hwithin => hwithin.graph.of_nodes_eq (FlowGraph.connect_nodes _ _)
  | disconnect fromNode toNode =>
    refine hv.withGraph fun limitOf hwithin => hwithin.graph.of_nodes_eq ?_
    unfold FlowGraph.disconnect
    split <;> rfl
  | insertAfter afterId newNode =>
    rw [LiveWorld.borrow]
    split_ifs with hinserts
    · exact hv.putFresh (FlowGraph.insertAfter_nodes_of_inserts hinserts newNode) hgives
    · obtain ⟨error, hfail⟩ := FlowGraph.insertAfter_error newNode hinserts
      rw [hfail]
      exact hv

theorem Typed.call (hstatic : StaticMetadata M) (hv : v.Typed) {c : SharedCall M} (hgives : c.GivesEmpty)
    (h : v.call c = some v') : v'.Typed := by
  cases c with
  | borrow b =>
    obtain ⟨-, ⟨⟩⟩ := Option.ite_none_right_eq_some.mp h
    exact hv.borrow hstatic hgives
  | live l =>
    cases l with
    | edit e =>
      obtain ⟨-, ⟨⟩⟩ := Option.ite_none_right_eq_some.mp h
      exact hv.edit hstatic hgives
    | walk l =>
      obtain ⟨t, ht, hwalked⟩ := walked_of_walk h
      obtain ⟨hnumbered, limitOf, hwithin⟩ := hv
      exact ⟨hnumbered.walked hwalked, limitOf, hwithin.walked hstatic ht hwalked⟩

def initialLimit (g : FlowGraph M) : QueueRef → Option Nat
  | .initial id => (g.node id).bind GraphNode.payloadLimit
  | .created _ => none

theorem typed_init {g : FlowGraph M} (hempty : g.QueuesEmpty) (calls : List Call) : (init g calls).Typed := by
  refine ⟨⟨fun _ => trivial, fun k hk => absurd hk List.not_mem_nil, fun _ => trivial⟩, initialLimit g,
    fun n node hnode => ?_, fun k hk => absurd hk List.not_mem_nil, fun i t current packet ht hpc => ?_⟩
  · have hlimit : (g.node n).bind GraphNode.payloadLimit = node.payloadLimit := by
      rw [show g.node n = some node from hnode]
      rfl
    change node.Bounded ((g.node n).bind GraphNode.payloadLimit)
    rw [hlimit]
    exact GraphNode.bounded_of_empty (hempty n node hnode)
  · simp only [init, World.init, List.getElem?_mapIdx, Option.map_eq_some_iff] at ht
    obtain ⟨call, -, rfl⟩ := ht
    cases hpc

theorem Typed.served (hstatic : StaticMetadata M) (hv : v.Typed) (c : SharedCall M) :
    ∀ served ∈ v.served c, served.2.Fits served.1.payloadLimit := by
  obtain ⟨-, limitOf, hwithin⟩ := hv
  intro served hserved
  unfold LiveWorld.served at hserved
  split at hserved
  · exact (hwithin.graph.executeSequential hstatic _ _ _).2 served hserved
  · split at hserved
    · obtain ⟨hfits, hbounded⟩ := hwithin.graph.receives hserved
      rw [hbounded.declares]
      exact hfits
    · cases hserved
  · cases hserved

/-- In every interleaving of both engines with edits of the graph, a module is called only with packets
that its metadata allows. -/
theorem payload_limits_hold (hstatic : StaticMetadata M) {g : FlowGraph M} (hempty : g.QueuesEmpty) {calls : List Call}
    {cs : List (SharedCall M)} (hgives : ∀ c ∈ cs, c.GivesEmpty) (h : run LiveWorld.call (init g calls) cs = some v)
    (c : SharedCall M) {node : GraphNode M} {packet : Packet} (hserved : (node, packet) ∈ v.served c) {max : Nat}
    (hmax : node.metadata.resourceLimits.maxPayloadBytes = some max) : packet.len ≤ max := by
  have hstep : ∀ (v : LiveWorld M) (c : SharedCall M) (v' : LiveWorld M), v.Typed → SharedCall.GivesEmpty c →
      LiveWorld.call v c = some v' → v'.Typed :=
    fun v c v' hv hgives h => hv.call hstatic hgives h
  have htyped : v.Typed :=
    run_preserves hstep (typed_init hempty calls) (along_of_forall fun c hc _ => hgives c hc) h
  exact htyped.served hstatic c (node, packet) hserved max hmax

end LiveWorld

structure ByteNode where
  deriving DecidableEq

instance : Node ByteNode where
  metadata _ := ⟨"byte", ⟨some 1, none⟩⟩
  nodeType _ := .source
  initializeModule m := (m, .returned (.ok ()))
  process m packet := (m, .returned (.ok (some packet)))
  shutdown m := (m, .returned (.ok ()))
  migrate m := (m, .returned (.ok ()))

theorem byteNode_static : StaticMetadata ByteNode := ⟨fun _ _ => rfl, fun _ => rfl⟩

def byteGraph : FlowGraph ByteNode := FlowGraph.new.addNode (.new ⟨0⟩ ⟨0, 1, ⟨⟩⟩ .default)

/-- Two bytes are refused; while the node is swapped, one byte goes through its queue. -/
def byteCalls : List (SharedCall ByteNode) :=
  [.borrow (.executeSequential ⟨0⟩ (bytes [1, 2]) [⟨0, 0⟩]), .live (.walk ⟨0, .enter⟩),
    .live (.edit (.swapNode ⟨0⟩ ⟨9, 1, ⟨⟩⟩ true)), .live (.walk ⟨0, .admission 0⟩), .live (.walk ⟨0, .send⟩),
    .live (.walk ⟨0, .relock⟩)]

theorem byteCalls_giveEmpty : ∀ c ∈ byteCalls, c.GivesEmpty := by
  simp [byteCalls, SharedCall.GivesEmpty]

theorem LiveWorld.payload_limits_hold_byte : ∃ v node packet,
    run LiveWorld.call (.init byteGraph [⟨⟨0⟩, bytes [1], 1⟩]) byteCalls = some v ∧
      v.served (.live (.walk ⟨0, .recv 0⟩)) = [(node, packet)] ∧ packet.len ≤ 1 := by
  have hrun : ∃ v, run LiveWorld.call (.init byteGraph [⟨⟨0⟩, bytes [1], 1⟩]) byteCalls = some v ∧
      ∃ node packet, v.served (.live (.walk ⟨0, .recv 0⟩)) = [(node, packet)] ∧
        node.metadata.resourceLimits.maxPayloadBytes = some 1 := ⟨_, rfl, _, _, rfl, rfl⟩
  obtain ⟨v, hv, node, packet, hserved, hmax⟩ := hrun
  have hmem : (node, packet) ∈ v.served (.live (.walk ⟨0, .recv 0⟩)) := hserved ▸ List.mem_singleton_self _
  exact ⟨v, node, packet, hv, hserved, payload_limits_hold byteNode_static
    (FlowGraph.queuesEmpty_of_entries (by decide)) byteCalls_giveEmpty hv _ hmem hmax⟩

end Nyarix
