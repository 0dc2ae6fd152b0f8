import Nyarix.Graph.Edits
import Nyarix.Lib.Trace
import Nyarix.Runtime.Host

/-! The lifecycle of module instances over whole runs: whether every `process` of an instance comes
after a successful `initialize` of it and before its `shutdown`. -/

namespace Nyarix
open Transition

def Live (events : List LifecycleEvent) (ptr : Nat) : Prop :=
  .initialized ptr ∈ events ∧ .shutDown ptr ∉ events

def InOrder (events : List LifecycleEvent) : Prop :=
  Trace.Guarded (fun before event => ∀ ptr, event = .processed ptr → Live before ptr) events

theorem inOrder_append {events more : List LifecycleEvent} (h : InOrder events)
    (hmore : ∀ event ∈ more, ∀ ptr, event ≠ .processed ptr) : InOrder (events ++ more) :=
  h.append fun before event after heq ptr hp =>
    absurd hp (hmore event (by rw [heq]; exact List.mem_append_right _ List.mem_cons_self) ptr)

theorem live_processed {events : List LifecycleEvent} {ptr : Nat} (h : Live events ptr) (calls : List ProcessCall) :
    Live (events ++ calls.map fun call => .processed call.ptr) ptr := by
  refine ⟨List.mem_append_left _ h.1, fun hmem => ?_⟩
  rcases List.mem_append.mp hmem with hmem | hmem
  · exact h.2 hmem
  · obtain ⟨call, -, hc⟩ := List.mem_map.mp hmem
    cases hc

theorem inOrder_processed {events : List LifecycleEvent} (h : InOrder events) {calls : List ProcessCall}
    (hlive : ∀ call ∈ calls, Live events call.ptr) : InOrder (events ++ calls.map fun call => .processed call.ptr) := by
  refine h.append fun before event after heq ptr hp => ?_
  obtain ⟨done, rest, rfl, rfl, hrest⟩ := List.map_eq_append_iff.mp heq
  obtain ⟨call, rest, rfl, rfl, -⟩ := List.map_eq_cons_iff.mp hrest
  cases hp
  exact live_processed (hlive call (by simp)) done

section Instances
variable {M : Type}

def FlowGraph.Instances (P : Nat → Prop) (g : FlowGraph M) : Prop :=
  ∀ n node, g.node n = some node → P node.module.ptr

namespace FlowGraph
variable {P Q : Nat → Prop} {g : FlowGraph M}

theorem Instances.imp (h : g.Instances P) (hpq : ∀ ptr, P ptr → Q ptr) : g.Instances Q :=
  fun n node hn => hpq _ (h n node hn)

theorem Instances.of_nodes {g' : FlowGraph M} (h : g.Instances P) (hn : g'.nodes = g.nodes) : g'.Instances P :=
  fun n node hnode => h n node (by rwa [FlowGraph.node, ← hn])

theorem Instances.modify (h : g.Instances P) (n : NodeId) {f : GraphNode M → GraphNode M}
    (hf : ∀ node, g.node n = some node → P (f node).module.ptr) : (g.modifyNode n f).Instances P := by
  intro m node hm
  rw [node_modifyNode] at hm
  split_ifs at hm with hmn
  · obtain ⟨old, hold, rfl⟩ := Option.map_eq_some_iff.mp hm
    exact hf old (hmn ▸ hold)
  · exact h m node hm

theorem Instances.insert (h : g.Instances P) {node : GraphNode M} (hp : P node.module.ptr) (n : NodeId)
    {g' : FlowGraph M} (hn : g'.nodes = g.nodes.insert n node) : g'.Instances P := by
  intro m node' hm
  rw [FlowGraph.node, hn] at hm
  by_cases hmn : m = n
  · subst hmn
    rw [AList.lookup_insert, Option.some.injEq] at hm
    exact hm ▸ hp
  · rw [AList.lookup_insert_ne hmn] at hm
    exact h m node' hm

theorem Instances.erase (h : g.Instances P) (n : NodeId) {g' : FlowGraph M} (hn : g'.nodes = g.nodes.erase n) :
    g'.Instances P := by
  intro m node hm
  rw [FlowGraph.node, hn] at hm
  by_cases hmn : m = n
  · subst hmn
    rw [AList.lookup_erase] at hm
    cases hm
  · rw [AList.lookup_erase_ne hmn] at hm
    exact h m node hm

theorem Instances.insertAfter (h : g.Instances P) (afterId : NodeId) {newNode : GraphNode M}
    (hp : P newNode.module.ptr) : (g.insertAfter afterId newNode).1.Instances P := by
  rcases g.insertAfter_nodes afterId newNode with hsame | hstored
  · exact h.of_nodes hsame
  · exact h.insert hp newNode.id hstored

theorem Instances.removeAndReconnect (h : g.Instances P) (id : NodeId) : (g.removeAndReconnect id).1.Instances P := by
  rcases g.removeAndReconnect_nodes id with hsame | herased
  · exact h.of_nodes hsame
  · exact h.erase id herased

theorem enqueueAndDequeueSync_module (node : GraphNode M) (packet : Packet) :
    (node.enqueueAndDequeueSync packet).1.module = node.module := by
  unfold GraphNode.enqueueAndDequeueSync
  split
  · rfl
  · split <;> rfl

variable [Node M]

theorem Instances.swapNode (h : g.Instances P) (id : NodeId) {newModule : ArcNode M} (hp : P newModule.ptr) :
    (g.swapNode id newModule).1.Instances P := by
  rcases g.swapNode_cases id newModule with ⟨-, hs⟩ | ⟨old, hold, ⟨_, hs⟩ | ⟨_, -, hs⟩⟩ <;> rw [hs]
  · exact h
  · refine h.insert ?_ id rfl
    exact old.migrate_ptr ▸ h id old hold
  · refine h.insert ?_ id rfl
    exact hp

theorem Instances.visit (h : g.Instances P) (current : NodeId) (packet : Packet) (reading : Reading) :
    (g.visit current packet reading).1.Instances P ∧ ∀ call ∈ (g.visit current packet reading).2.1, P call.ptr := by
  unfold FlowGraph.visit
  split
  · exact ⟨h, List.forall_mem_nil _⟩
  · rename_i node hnode
    have hnodeptr := h current node hnode
    split
    · exact ⟨h, List.forall_mem_nil _⟩
    · have hqueue := enqueueAndDequeueSync_module node (packet.recordHop current reading.now)
      split
      · rename_i node' reason heq
        rw [heq] at hqueue
        exact ⟨h.modify _ fun _ _ => hqueue ▸ hnodeptr, List.forall_mem_nil _⟩
      · rename_i node' e heq
        rw [heq] at hqueue
        exact ⟨h.modify _ fun _ _ => hqueue ▸ hnodeptr, List.forall_mem_nil _⟩
      · rename_i node' queued heq
        rw [heq] at hqueue
        have hptr : P node'.module.ptr := hqueue ▸ hnodeptr
        refine ⟨h.modify _ fun _ _ => ?_, fun call hc => ?_⟩
        · rw [GraphNode.processTimed_ptr]
          exact hptr
        · simp only [GraphNode.processCalls] at hc
          split_ifs at hc
          · rw [List.mem_singleton.mp hc]
            exact hptr
          · cases hc

theorem Instances.walk (h : g.Instances P) (readings : List Reading) (current : NodeId) (packet : Packet) :
    (FlowGraph.walk readings g current packet).graph.Instances P ∧
      ∀ call ∈ (FlowGraph.walk readings g current packet).calls, P call.ptr := by
  induction readings generalizing g current packet with
  | nil => exact ⟨h, List.forall_mem_nil _⟩
  | cons reading readings ih =>
    obtain ⟨hgraph, hcalls⟩ := h.visit current packet reading
    unfold FlowGraph.walk
    split
    · rename_i g' calls outcome hv
      rw [hv] at hgraph hcalls
      exact ⟨hgraph, hcalls⟩
    · rename_i g' calls next packet' hv
      rw [hv] at hgraph hcalls
      obtain ⟨hrest, hmore⟩ := ih hgraph next packet'
      refine ⟨hrest, fun call hc => ?_⟩
      rcases List.mem_append.mp hc with hc | hc
      · exact hcalls call hc
      · exact hmore call hc

theorem Instances.executeSequential (h : g.Instances P) (entry : NodeId) (packet : Packet) (readings : List Reading) :
    (g.executeSequential entry packet readings).graph.Instances P ∧
      ∀ call ∈ (g.executeSequential entry packet readings).calls, P call.ptr := by
  unfold FlowGraph.executeSequential
  split_ifs
  · exact h.walk readings entry packet
  · exact ⟨h, List.forall_mem_nil _⟩

end FlowGraph
end Instances

namespace Host
variable {M : Type} [Node M] {h h' : Host M}

theorem initializeNodes_spec (ids : List NodeId) (h : Host M) :
    (∃ more, (h.initializeNodes ids).1.events = h.events ++ more ∧ ∀ event ∈ more, ∃ ptr, event = .initialized ptr) ∧
      (∀ n, ((h.initializeNodes ids).1.graph.node n).map (·.module.ptr) = (h.graph.node n).map (·.module.ptr)) ∧
      ((h.initializeNodes ids).2 = .returned (.ok ()) → ∀ n ∈ ids, ∀ node, h.graph.node n = some node →
        .initialized node.module.ptr ∈ (h.initializeNodes ids).1.events) := by
  induction ids generalizing h with
  | nil => exact ⟨⟨[], (List.append_nil _).symm, List.forall_mem_nil _⟩, fun _ => rfl, fun _ => List.forall_mem_nil _⟩
  | cons id ids ih =>
    -- initializing a node keeps the instance at every node
    have hkeep : ∀ node node' : GraphNode M, h.graph.node id = some node → node'.module.ptr = node.module.ptr →
        ∀ n, ((h.graph.modifyNode id fun _ => node').node n).map (·.module.ptr) =
          (h.graph.node n).map (·.module.ptr) := by
      intro node node' hnode hptr n
      rw [FlowGraph.node_modifyNode]
      split_ifs with hn
      · simp only [hn, hnode, Option.map_some, hptr]
      · rfl
    unfold initializeNodes
    split
    -- a node that is gone is passed over
    · rename_i hnone
      obtain ⟨hevents, hptrs, hall⟩ := ih h
      refine ⟨hevents, hptrs, fun hok n hn node hnode => ?_⟩
      rcases List.mem_cons.mp hn with rfl | hn
      · rw [hnone] at hnode
        cases hnode
      · exact hall hok n hn node hnode
    · rename_i node hnode
      have hptr := node.initializeModule_ptr
      split
      · rename_i node' hinit
        rw [hinit] at hptr
        obtain ⟨⟨more, hevents, hmore⟩, hptrs, hall⟩ := ih ⟨h.graph.modifyNode id fun _ => node',
          h.events ++ [.initialized node'.module.ptr]⟩
        refine ⟨⟨.initialized node'.module.ptr :: more, ?_, ?_⟩, fun n => ?_, fun hok n hn other hother => ?_⟩
        · rw [hevents, List.append_assoc, List.singleton_append]
        · exact List.forall_mem_cons.mpr ⟨⟨_, rfl⟩, hmore⟩
        · rw [hptrs, hkeep node node' hnode hptr]
        · have hsame := hkeep node node' hnode hptr n
          rw [hother, Option.map_some] at hsame
          obtain ⟨other', hother', heq⟩ := Option.map_eq_some_iff.mp hsame
          rcases List.mem_cons.mp hn with rfl | hn
          · rw [hnode, Option.some.injEq] at hother
            rw [hevents, ← hother, ← show node'.module.ptr = node.module.ptr from hptr]
            simp
          · rw [← heq]
            exact hall hok n hn other' hother'
      · rename_i node' result hne hinit
        rw [hinit] at hptr
        exact ⟨⟨[], (List.append_nil _).symm, List.forall_mem_nil _⟩, hkeep node node' hnode hptr,
          fun hok => (hne hok).elim⟩

theorem shutdownNodes_events (ids : List NodeId) (h : Host M) (firstError : Option ModuleError) :
    ∃ more, (h.shutdownNodes ids firstError).1.events = h.events ++ more ∧
      ∀ event ∈ more, ∃ ptr, event = .shutDown ptr := by
  have hnode : ∀ node : GraphNode M, ∀ event ∈ shutdownEvents node, ∃ ptr, event = .shutDown ptr := by
    intro node event he
    unfold shutdownEvents at he
    split_ifs at he
    · exact ⟨_, List.mem_singleton.mp he⟩
    · cases he
  induction ids generalizing h firstError with
  | nil => exact ⟨[], (List.append_nil _).symm, List.forall_mem_nil _⟩
  | cons id ids ih =>
    have hmore : ∀ (node : GraphNode M) (g : FlowGraph M) (first : Option ModuleError), ∃ more,
        (shutdownNodes ids ⟨g, h.events ++ shutdownEvents node⟩ first).1.events = h.events ++ more ∧
          ∀ event ∈ more, ∃ ptr, event = .shutDown ptr := by
      intro node g first
      obtain ⟨more, hevents, hmore⟩ := ih ⟨g, h.events ++ shutdownEvents node⟩ first
      refine ⟨shutdownEvents node ++ more, by rw [hevents, List.append_assoc], fun event he => ?_⟩
      rcases List.mem_append.mp he with he | he
      · exact hnode node event he
      · exact hmore event he
    unfold shutdownNodes
    split
    · exact ih h firstError
    · rename_i node _
      simp only
      split
      · exact hmore node _ _
      · exact hmore node _ _
      · exact ⟨shutdownEvents node, rfl, hnode node⟩

theorem inOrder_initializeNodes (ids : List NodeId) (hin : InOrder h.events) :
    InOrder (h.initializeNodes ids).1.events := by
  obtain ⟨⟨more, hevents, hmore⟩, -, -⟩ := initializeNodes_spec ids h
  rw [hevents]
  apply inOrder_append hin
  intro event he ptr hproc
  obtain ⟨ptr', rfl⟩ := hmore event he
  cases hproc

theorem inOrder_shutdownNodes (ids : List NodeId) (hin : InOrder h.events) :
    InOrder (h.shutdownNodes ids none).1.events := by
  obtain ⟨more, hevents, hmore⟩ := shutdownNodes_events ids h none
  rw [hevents]
  apply inOrder_append hin
  intro event he ptr hproc
  obtain ⟨ptr', rfl⟩ := hmore event he
  cases hproc

end Host

def Phase.started : Phase → Bool
  | .init => false
  | _ => true

/-- The loop may hand packets to this instance, or will after it has initialized it. -/
def Usable (phase : Phase) (events : List LifecycleEvent) (ptr : Nat) : Prop :=
  phase.ended = false → .shutDown ptr ∉ events ∧ (phase.started = true → .initialized ptr ∈ events)

theorem Usable.of_phase {p q : Phase} {events : List LifecycleEvent} {ptr : Nat} (h : Usable p events ptr)
    (hpq : q.ended = false → p.ended = false ∧ p.started = q.started) : Usable q events ptr := by
  intro hq
  obtain ⟨hp, hs⟩ := hpq hq
  exact hs ▸ h hp

theorem Usable.append {p : Phase} {events more : List LifecycleEvent} {ptr : Nat} (h : Usable p events ptr)
    (hmore : .shutDown ptr ∉ more) : Usable p (events ++ more) ptr := by
  intro hp
  obtain ⟨hdown, hinit⟩ := h hp
  refine ⟨fun hmem => ?_, fun hs => List.mem_append_left _ (hinit hs)⟩
  rcases List.mem_append.mp hmem with hmem | hmem
  · exact hdown hmem
  · exact hmore hmem

namespace RunState
variable {M : Type} [Node M] {s s' : RunState (Host M)} {entry : NodeId}

def InstallsUsable (s : RunState (Host M)) (l : LoopLabel (List Reading) (Edit M)) : Prop :=
  ∀ x ptr, l = .outside (.edit x) → x.installs = some ptr → Usable s.phase s.graph.events ptr

structure Orderly (s : RunState (Host M)) : Prop where
  inOrder : InOrder s.graph.events
  usable : s.graph.graph.Instances (Usable s.phase s.graph.events)

omit [Node M] in
theorem Orderly.of_phase (h : s.Orderly) (hg : s'.graph = s.graph)
    (hp : s'.phase.ended = false → s.phase.ended = false ∧ s.phase.started = s'.phase.started) : s'.Orderly where
  inOrder := by rw [hg]; exact h.inOrder
  usable := by
    rw [hg]
    exact h.usable.imp fun _ hu => hu.of_phase hp

omit [Node M] in
theorem Orderly.of_ended (h : InOrder s'.graph.events) (hp : s'.phase.ended = true) : s'.Orderly where
  inOrder := h
  usable := fun _ _ _ he => by rw [hp] at he; cases he

omit [Node M] in
theorem installed_of_node {h : Host M} {n : NodeId} {node : GraphNode M} (hn : h.graph.node n = some node) :
    h.installed node.module.ptr = true := by
  rw [Host.installed, List.any_eq_true]
  exact ⟨⟨n, node⟩, AList.mem_lookup_iff.mp hn, by simp⟩

theorem Orderly.edit (h : s.Orderly) {x : Edit M}
    (hx : ∀ ptr, x.installs = some ptr → Usable s.phase s.graph.events ptr) :
    ({ s with graph := Host.edit x s.graph } : RunState (Host M)).Orderly := by
  cases x with
  | insertAfter afterId newNode => exact ⟨h.inOrder, h.usable.insertAfter afterId (hx _ rfl)⟩
  | swapNode id newModule => exact ⟨h.inOrder, h.usable.swapNode id (hx _ rfl)⟩
  | removeAndReconnect id => exact ⟨h.inOrder, h.usable.removeAndReconnect id⟩
  | prepare ptr =>
    simp only [Host.edit]
    split_ifs
    · exact h
    · exact ⟨inOrder_append h.inOrder (by simp), h.usable.imp fun _ hu => hu.append (by simp)⟩
  | retire ptr =>
    simp only [Host.edit]
    split_ifs with hinst
    · exact h
    · refine ⟨inOrder_append h.inOrder (by simp), fun n node hn => (h.usable n node hn).append ?_⟩
      have hne : node.module.ptr ≠ ptr := fun heq => hinst (heq ▸ installed_of_node hn)
      simpa using hne

theorem orderly_walk (h : s.Orderly) {stage : Stage} {packet : Packet} (hp : s.phase = .lock stage packet)
    {readings : List Reading} {graph : Host M} {outcome : Option Outcome}
    (he : Host.execute entry readings s.graph packet = (graph, outcome)) :
    InOrder graph.events ∧ graph.graph.Instances (Live graph.events) := by
  have hlive : s.graph.graph.Instances (Live s.graph.events) := h.usable.imp fun ptr hu => by
    rw [hp] at hu
    obtain ⟨hdown, hinit⟩ := hu rfl
    exact ⟨hinit rfl, hdown⟩
  obtain ⟨hgraph, hcalls⟩ := hlive.executeSequential entry packet readings
  obtain ⟨rfl, -⟩ := Prod.mk.inj he
  exact ⟨inOrder_processed h.inOrder hcalls, hgraph.imp fun _ hl => live_processed hl _⟩

theorem orderly_of_live {p : Phase} {events : List LifecycleEvent} {ptr : Nat} (h : Live events ptr) :
    Usable p events ptr := fun _ => ⟨h.2, fun _ => h.1⟩

theorem Orderly.initialized (h : s.Orderly) (hp : s.phase = .init) {graph : Host M}
    (hi : s.graph.initializeNodes s.graph.graph.nodeIds = (graph, .returned (.ok ()))) :
    ({ s with graph := graph, phase := .head } : RunState (Host M)).Orderly := by
  have hin := Host.inOrder_initializeNodes s.graph.graph.nodeIds h.inOrder
  obtain ⟨⟨more, hevents, hmore⟩, hptrs, hall⟩ := Host.initializeNodes_spec s.graph.graph.nodeIds s.graph
  rw [hi] at hin hevents hptrs hall
  refine ⟨hin, fun n node hn => ?_⟩
  -- the instance is the one that stood at the node before
  have hold := hptrs n
  rw [hn, Option.map_some] at hold
  obtain ⟨old, hnode, hptr⟩ := Option.map_eq_some_iff.mp hold.symm
  have husable := h.usable n old hnode
  rw [hp] at husable
  have hlive : .initialized old.module.ptr ∈ graph.events := hall rfl n (FlowGraph.mem_nodeIds hnode) old hnode
  intro hended
  rw [← hptr]
  refine ⟨fun hmem => ?_, fun _ => hlive⟩
  rw [hevents] at hmem
  rcases List.mem_append.mp hmem with hmem | hmem
  · exact (husable rfl).1 hmem
  · obtain ⟨ptr', hptr'⟩ := hmore _ hmem
    cases hptr'

theorem Orderly.outside (h : s.Orderly) {a : Outside (Edit M)}
    (hl : s.InstallsUsable (.outside a : LoopLabel (List Reading) (Edit M)))
    (hd : s.disturb (Host.engine entry) a = some s') : s'.Orderly := by
  have hphase := (undisturbed hd).phase
  rcases disturb_graph hd with ⟨x, rfl, rfl⟩ | hgraph
  · exact h.edit fun ptr hx => hl x ptr rfl hx
  · refine h.of_phase hgraph fun hended => ?_
    rw [hphase] at hended ⊢
    exact ⟨hended, rfl⟩

theorem Orderly.step (h : s.Orderly) {l : LoopLabel (List Reading) (Edit M)} (hl : s.InstallsUsable l)
    (hs : Step (Host.engine entry) s l s') : s'.Orderly := by
  cases hs with
  | initialized hp hm hi => exact h.initialized hp hi
  | @failed graph result hp hm hi =>
    have hin := Host.inOrder_initializeNodes s.graph.graph.nodeIds h.inOrder
    rw [show s.graph.initializeNodes s.graph.graph.nodeIds = (graph, result) from hi] at hin
    exact .of_ended hin rfl
  | resumed hp | stopped hp | paused hp | received hp | closed hp | drained hp =>
    exact h.of_phase rfl fun _ => by rw [hp]; exact ⟨rfl, rfl⟩
  | @delivered stage _ _ hp =>
    exact h.of_phase rfl fun _ => by rw [hp]; cases stage <;> exact ⟨rfl, rfl⟩
  | @refused stage _ hp =>
    cases stage with
    | main => exact h.of_phase rfl fun _ => by rw [hp]; exact ⟨rfl, rfl⟩
    | drain => exact .of_ended h.inOrder rfl
  | emptied | expiredDrain | expiredShutdown => exact .of_ended h.inOrder rfl
  | unfinished hp hm he | executed hp hm he =>
    obtain ⟨horder, hlive⟩ := orderly_walk h hp he
    exact ⟨horder, hlive.imp fun _ => orderly_of_live⟩
  | @shutDown graph result hp hm hs =>
    have hin := Host.inOrder_shutdownNodes s.graph.graph.nodeIds h.inOrder
    rw [show s.graph.shutdownNodes s.graph.graph.nodeIds none = (graph, result) from hs] at hin
    exact .of_ended hin rfl
  | outside hd => exact h.outside hl hd

/-- While edits put only usable instances into the graph, every instance processes packets after
its initialization and before its shutdown. -/
theorem module_lifecycle {graph : FlowGraph M} {source sink : Channel Packet} {pause : GraphPause}
    {ls : List (LoopLabel (List Reading) (Edit M))}
    (hedits : Along (step (Host.engine entry)) InstallsUsable (init ⟨graph, []⟩ source sink pause) ls)
    (h : run (step (Host.engine entry)) (init ⟨graph, []⟩ source sink pause) ls = some s) :
    InOrder s.graph.events := by
  have hinit : (init ⟨graph, []⟩ source sink pause).Orderly :=
    ⟨Trace.guarded_nil, fun _ _ _ _ => ⟨List.not_mem_nil, fun hs => by cases hs⟩⟩
  exact (run_preserves (fun _ _ _ ho hl hs => Orderly.step ho hl (step_cases hs)) hinit hedits h).inOrder

/-- The source node's module is replaced while the loop is paused, by an instance that has been
initialized, and the loop walks a packet through it. -/
def preparedSwap : List (LoopLabel (List Reading) (Edit StubNode)) :=
  [.own .poll, .outside (.edit (.prepare 9)), .outside .pause, .outside .lock,
    .outside (.edit (.swapNode ⟨0⟩ ⟨9, 1, ⟨"stub", .source, .passes⟩⟩)), .outside .unlock, .outside .resume,
    .own .poll, .own .poll, .own (.execute [⟨0, 0⟩, ⟨0, 0⟩])]

theorem module_lifecycle_preparedSwap : ∃ s, run (step relayEngine) relayState preparedSwap = some s ∧
    InOrder s.graph.events := by
  have hedits : Along (step (Host.engine ⟨0⟩)) InstallsUsable (init ⟨relay, []⟩ relaySource relaySink (.new false))
      preparedSwap := by
    refine along_cons rfl (fun x ptr hx _ => by cases hx) ?_
    refine along_cons rfl (fun x ptr hx hi => by cases hx; cases hi) ?_
    refine along_cons rfl (fun x ptr hx _ => by cases hx) (along_cons rfl (fun x ptr hx _ => by cases hx) ?_)
    refine along_cons rfl (fun x ptr hx hi => by cases hx; cases hi; exact fun _ => ⟨by decide, fun _ => by decide⟩) ?_
    exact along_of_forall fun l hl s x ptr hx _ => by simp [hx] at hl
  exact ⟨_, rfl, module_lifecycle hedits
    (show run (step (Host.engine ⟨0⟩)) (init ⟨relay, []⟩ relaySource relaySink (.new false)) preparedSwap = some _
      from rfl)⟩

def bareSwap : List (LoopLabel (List Reading) (Edit StubNode)) :=
  [.own .poll, .outside .pause, .outside .lock,
    .outside (.edit (.swapNode ⟨0⟩ ⟨9, 1, ⟨"stub", .source, .passes⟩⟩)), .outside .unlock, .outside .resume,
    .own .poll, .own .poll, .own (.execute [⟨0, 0⟩, ⟨0, 0⟩])]

theorem bareSwap_processes_uninitialized : ∃ s, run (step relayEngine) relayState bareSwap = some s ∧
    ¬ InOrder s.graph.events := by
  refine ⟨_, rfl, fun h => ?_⟩
  have := h [.initialized 1, .initialized 0] (.processed 9) [.processed 1] rfl 9 rfl
  exact absurd this.1 (by decide)

end RunState
end Nyarix
