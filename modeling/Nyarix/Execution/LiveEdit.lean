import Nyarix.Execution.InFlight
import Nyarix.Graph.Atomicity

/-! Parallel execution on a graph that another task edits under the graph lock. A branch keeps
the sender it got while it held the lock, so an edit may take the queue of that sender out of
the graph before the branch sends, or before it comes back to receive. -/

namespace Nyarix
open Transition

/-- A node queue's identity: that of an initial node, or a number given later. -/
inductive QueueRef where
  | initial (id : NodeId)
  | created (serial : Nat)
  deriving DecidableEq

structure KeptNode (M : Type) where
  queue : QueueRef
  node : GraphNode M

/-- A call of the editing task, with its choice to keep or drop the node it gets back. -/
inductive LiveEdit (M : Type) where
  | swapNode (id : NodeId) (newModule : ArcNode M) (keep : Bool)
  | removeNode (id : NodeId) (keep : Bool)
  | removeAndReconnect (id : NodeId) (keep : Bool)
  | addNode (node : GraphNode M)
  /-- `add_node` of a node kept from an earlier edit -/
  | addKept (index : Nat)
  | dropKept (index : Nat)

inductive LiveLabel (M : Type) where
  | walk (l : Label)
  | edit (e : LiveEdit M)

/-- The running branches and what the edits changed: whose queue stands in the graph at each
node, whose sender each branch holds, and the nodes kept aside. -/
structure LiveWorld (M : Type) where
  world : World M
  installed : NodeId → QueueRef
  senders : TaskId → QueueRef
  kept : List (KeptNode M)
  nextSerial : Nat

/-- Where a branch's sender leads: to the node in the graph, to a node kept aside, or to a
queue whose receiver was dropped. -/
inductive SendTarget where
  | installed
  | kept (index : Nat)
  | closed

namespace LiveWorld
variable {M : Type}

def init (g : FlowGraph M) (calls : List Call) : LiveWorld M where
  world := World.init g calls
  installed := .initial
  senders _ := .initial ⟨0⟩
  kept := []
  nextSerial := 0

def withGraph (v : LiveWorld M) (graph : FlowGraph M) : LiveWorld M :=
  { v with world := { v.world with graph := graph } }

def takeOut (v : LiveWorld M) (id : NodeId) (node : GraphNode M) (keep : Bool) : LiveWorld M :=
  if keep then { v with kept := v.kept ++ [⟨v.installed id, node⟩] } else v

def putFresh (v : LiveWorld M) (id : NodeId) : LiveWorld M :=
  { v with
    installed := Function.update v.installed id (.created v.nextSerial)
    nextSerial := v.nextSerial + 1 }

def sendTarget (v : LiveWorld M) (i : TaskId) (current : NodeId) : SendTarget :=
  if (v.world.graph.node current).isSome ∧ v.installed current = v.senders i then .installed
  else
    match v.kept.findIdx? (·.queue = v.senders i) with
    | some k => .kept k
    | none => .closed

variable [Node M]

def apply (v : LiveWorld M) : LiveEdit M → LiveWorld M
  | .swapNode id newModule keep =>
    match v.world.graph.swapNode id newModule with
    | (graph, .returned (.ok outcome)) =>
      ((v.takeOut id outcome.replaced keep).withGraph graph).putFresh id
    | (graph, _) => v.withGraph graph
  | .removeNode id keep =>
    match v.world.graph.removeNode id with
    | (graph, some removed) => (v.takeOut id removed keep).withGraph graph
    | (graph, none) => v.withGraph graph
  | .removeAndReconnect id keep =>
    match v.world.graph.removeAndReconnect id with
    | (graph, .ok removed) => (v.takeOut id removed keep).withGraph graph
    | (graph, .error _) => v.withGraph graph
  | .addNode node => (v.withGraph (v.world.graph.addNode node)).putFresh node.id
  | .addKept index =>
    match v.kept[index]? with
    | none => v
    | some k =>
      { v.withGraph (v.world.graph.addNode k.node) with
        installed := Function.update v.installed k.node.id k.queue
        kept := v.kept.eraseIdx index }
  | .dropKept index => { v with kept := v.kept.eraseIdx index }

/-- Send through the sender a branch holds; `none` while the lane it leads to is full. -/
def send (v : LiveWorld M) (i : TaskId) (t : Task) (current : NodeId) (packet : Packet) :
    Option (LiveWorld M) :=
  match v.sendTarget i current with
  | .installed => (v.world.send i t current packet).map fun w => { v with world := w }
  | .kept index =>
    match v.kept[index]? with
    | none => none
    | some k =>
      (k.node.queue.trySend packet).map fun queue =>
        { v with
          world := v.world.move i t (.relock current)
          kept := v.kept.set index { k with node := { k.node with queue := queue } } }
  | .closed =>
    some { v with
      world := v.world.finish i t (.err (.graph (.buildFailed s!"node {current} input queue closed"))) }

/-- One branch's step; `admission` hands it the sender of the node it finds. -/
def walk (v : LiveWorld M) (l : Label) : Option (LiveWorld M) :=
  match v.world.tasks[l.task]? with
  | none => none
  | some t =>
    match l.action, t.pc with
    | .send, .send current packet => v.send l.task t current packet
    | .admission _, .lock current _ =>
      (v.world.step l).map fun w =>
        { v with world := w, senders := Function.update v.senders l.task (v.installed current) }
    | _, _ => (v.world.step l).map fun w => { v with world := w }

def step (v : LiveWorld M) : LiveLabel M → Option (LiveWorld M)
  | .walk l => v.walk l
  | .edit e => if v.world.mutex = none then some (v.apply e) else none

def NeverWaits (v : LiveWorld M) : Prop :=
  ∀ t ∈ v.world.tasks, ∀ n, t.pc = .recv n → 0 < v.world.graph.queued n

/-- The step strands no branch. A queue that an edit puts under an id holds a packet for every
branch between its send and its receive there; and a send into a queue kept aside happens
while the node is gone, or while its queue has a packet to spare. -/
def Harmless (v : LiveWorld M) : LiveLabel M → Prop
  | .edit (.swapNode id _ _) => ∀ node, v.world.graph.node id = some node →
    (∃ r, node.migrate.2 = .returned r) → v.world.inFlight id = 0
  | .edit (.addNode node) => v.world.inFlight node.id ≤ node.queue.len
  | .edit (.addKept index) => ∀ k, v.kept[index]? = some k →
    v.world.inFlight k.node.id ≤ k.node.queue.len
  | .walk ⟨i, .send⟩ => ∀ t n packet, v.world.tasks[i]? = some t → t.pc = .send n packet →
    ∀ k, v.sendTarget i n = .kept k → (v.world.graph.node n).isSome →
      v.world.inFlight n < v.world.graph.queued n
  | _ => True

end LiveWorld

def Pc.AtQueue : Pc → Prop
  | .send .. | .recv _ => True
  | _ => False

namespace World
variable {M : Type} {w w' : World M} {i k : TaskId} {t u : Task} {n : NodeId}

def Locked (w : World M) : Prop :=
  ∀ i t n, w.tasks[i]? = some t → t.pc = .recv n → w.mutex = some i ∧ (w.graph.node n).isSome

theorem atQueue_of_set {tasks : List Task} {t' : Task} (ht' : ¬ t'.pc.AtQueue) (hk : (tasks.set i t')[k]? = some u)
    (hu : u.pc.AtQueue) : k ≠ i ∧ tasks[k]? = some u := by
  rw [List.getElem?_set] at hk
  split_ifs at hk with hki hlt
  · exact absurd hu (Option.some.inj hk ▸ ht')
  · exact ⟨Ne.symm hki, hk⟩

theorem atQueue_of_join {c : TaskId} {child t' : Task} (ht' : ¬ t'.pc.AtQueue)
    (hk : ((w.tasks.set c { child with pc := .joined }).set i t')[k]? = some u) (hu : u.pc.AtQueue) :
    k ≠ i ∧ w.tasks[k]? = some u := by
  obtain ⟨hki, hk⟩ := atQueue_of_set ht' hk hu
  exact ⟨hki, (atQueue_of_set id hk hu).2⟩

theorem task_of_abortTasks {set : List TaskId} {tasks : List Task}
    (hk : (abortTasks set tasks)[k]? = some u) : ∃ u₀, tasks[k]? = some u₀ ∧ u₀.pc = u.pc := by
  rw [abortTasks, List.getElem?_mapIdx, Option.map_eq_some_iff] at hk
  obtain ⟨u₀, hu₀, rfl⟩ := hk
  refine ⟨u₀, hu₀, ?_⟩
  split_ifs <;> rfl

variable [Node M]

/-- What brings a branch to a queue: its packet was admitted, or it came back for the lock. -/
inductive Arrives (w w' : World M) (i : TaskId) (t : Task) : Action → Pc → Prop
  | admitted {current packet now admitted} (hpc : t.pc = .lock current packet)
      (h : w.graph.admission current packet now = .ok admitted) :
    Arrives w w' i t (.admission now) (.send current admitted)
  | relocked {current} (hm : w.mutex = none) (hm' : w'.mutex = some i) (hgraph : w'.graph = w.graph)
      (hnode : (w.graph.node current).isSome) : Arrives w w' i t .relock (.recv current)

theorem atQueue_of_step {a : Action} (hs : Step w i t a w') (hk : w'.tasks[k]? = some u) (hu : u.pc.AtQueue) :
    (k = i ∧ Arrives w w' i t a u.pc) ∨ k ≠ i ∧ ∃ u₀, w.tasks[k]? = some u₀ ∧ u₀.pc = u.pc := by
  have hset : ∀ {t' : Task}, ¬ t'.pc.AtQueue → (w.tasks.set i t')[k]? = some u →
      k ≠ i ∧ ∃ u₀, w.tasks[k]? = some u₀ ∧ u₀.pc = u.pc := fun ht' hk =>
    (atQueue_of_set ht' hk hu).imp_right fun h => ⟨u, h, rfl⟩
  have hwrite : ∀ {pc : Pc}, (w.tasks.set i { t with pc := pc })[k]? = some u → Arrives w w' i t a pc →
      (k = i ∧ Arrives w w' i t a u.pc) ∨ k ≠ i ∧ ∃ u₀, w.tasks[k]? = some u₀ ∧ u₀.pc = u.pc := by
    intro pc hk hpc
    rw [List.getElem?_set] at hk
    split_ifs at hk with hki hlt
    · obtain rfl := Option.some.inj hk
      exact .inl ⟨hki.symm, hpc⟩
    · exact .inr ⟨Ne.symm hki, u, hk, rfl⟩
  cases step_cases hs with
  | entered | acquired | sent | refused | finished => exact .inr (hset id hk)
  | admitted hpc _ h => exact hwrite hk (.admitted hpc h)
  | relocked _ hm hnode => exact hwrite hk (.relocked hm rfl rfl (by rw [hnode]; rfl))
  | @received current elapsed graph step =>
    cases step with
    | finished | goto => exact .inr (hset id hk)
    | fork targets packet =>
      change (w.tasks.set i _ ++ _)[k]? = some u at hk
      rw [List.getElem?_append] at hk
      split_ifs at hk
      · exact .inr (hset id hk)
      · -- the new branches wait for a permit
        obtain ⟨target, -, rfl⟩ := List.mem_map.mp (List.mem_of_getElem? hk)
        exact hu.elim
  | joined =>
    obtain ⟨hki, hk⟩ := atQueue_of_join id hk hu
    exact .inr ⟨hki, u, hk, rfl⟩
  | failed =>
    obtain ⟨u₀, hu₀, hpc₀⟩ := task_of_abortTasks hk
    obtain ⟨hki, hu₀⟩ := atQueue_of_join id hu₀ (hpc₀ ▸ hu)
    exact .inr ⟨hki, u₀, hu₀, hpc₀⟩
  | dropped =>
    obtain ⟨u₀, hu₀, hpc₀⟩ := task_of_abortTasks hk
    obtain ⟨hki, hu₀⟩ := atQueue_of_set id hu₀ (hpc₀ ▸ hu)
    exact .inr ⟨hki, u₀, hu₀, hpc₀⟩

theorem receiver_of_step {a : Action} (hs : Step w i t a w') (hk : w'.tasks[k]? = some u)
    (hn : u.pc = .recv n) :
    (k = i ∧ w.mutex = none ∧ w'.mutex = some i ∧ w'.graph = w.graph ∧ (w.graph.node n).isSome) ∨
      k ≠ i ∧ ∃ u₀, w.tasks[k]? = some u₀ ∧ u₀.pc = .recv n := by
  rcases atQueue_of_step hs hk (by rw [hn]; trivial) with ⟨hki, harrives⟩ | hbefore
  · rw [hn] at harrives
    cases harrives with
    | relocked hm hm' hgraph hnode => exact .inl ⟨hki, hm, hm', hgraph, hnode⟩
  · rw [hn] at hbefore
    exact .inr hbefore

theorem mutex_of_step {a : Action} (hl : w.Locked) (ht : w.tasks[i]? = some t) (hs : Step w i t a w')
    (hk : w.mutex = some k) (hki : k ≠ i) : w'.mutex = some k := by
  cases step_cases hs with
  | entered | acquired | admitted | sent | refused | joined | failed | finished => exact hk
  | relocked _ hm => rw [hm] at hk; cases hk
  | received hpc =>
    have hmi := (hl i t _ ht hpc).1
    rw [hk] at hmi
    exact absurd (Option.some.inj hmi) hki
  | dropped =>
    refine (if_neg fun hi => hki ?_).trans hk
    rw [hk] at hi
    exact Option.some.inj hi

theorem locked_step {a : Action} (hl : w.Locked) (ht : w.tasks[i]? = some t) (hs : Step w i t a w') :
    w'.Locked := by
  intro k u n hk hn
  rcases receiver_of_step hs hk hn with ⟨rfl, -, hm, hg, hnode⟩ | ⟨hki, u₀, hu₀, hn₀⟩
  · exact ⟨hm, hg ▸ hnode⟩
  · obtain ⟨hm, hnode⟩ := hl k u₀ n hu₀ hn₀
    exact ⟨mutex_of_step hl ht hs hm hki, by rw [(step_sameLanes hs).isSome, hnode]⟩

omit [Node M] in
theorem Locked.set {w' : World M} (hl : w.Locked) (t' : Task) (ht' : ¬ t'.pc.AtQueue)
    (htasks : w'.tasks = w.tasks.set i t') (hm : w'.mutex = w.mutex) (hg : w'.graph = w.graph) :
    w'.Locked := by
  intro k u n hk hn
  rw [htasks] at hk
  rw [hm, hg]
  exact hl k u n (atQueue_of_set ht' hk (by rw [hn]; trivial)).2 hn

omit [Node M] in
theorem Locked.finish (hl : w.Locked) (r : BranchResult) : (w.finish i t r).Locked :=
  hl.set { t with pc := .done r, permit := false } id rfl rfl rfl

omit [Node M] in
theorem Locked.relock (hl : w.Locked) (current : NodeId) : (w.move i t (.relock current)).Locked :=
  hl.set { t with pc := .relock current } id rfl rfl rfl

/-- Every branch between its send and its receive at a node of the graph has a packet in the
queue of that node. -/
def Supplied (w : World M) : Prop :=
  ∀ n node, w.graph.node n = some node → w.inFlight n ≤ node.queue.len

omit [Node M] in
theorem queued_of_node {g : FlowGraph M} {node : GraphNode M} (h : g.node n = some node) :
    g.queued n = node.queue.len := by
  rw [FlowGraph.queued, h]
  rfl

theorem supplied_step {a : Action} (hw : w.Supplied) (ht : w.tasks[i]? = some t) (hs : Step w i t a w') :
    w'.Supplied := by
  intro n node' hnode'
  have hsome := (step_sameLanes hs).isSome n
  rw [hnode', Option.isSome_some] at hsome
  obtain ⟨node, hnode⟩ := Option.isSome_iff_exists.mp hsome.symm
  have hb := balance_misses ht hs n
  have hle := hw n node hnode
  rw [queued_of_node hnode, queued_of_node hnode'] at hb
  omega

end World

namespace LiveWorld
variable {M : Type} {v v' : LiveWorld M}

structure Safe (v : LiveWorld M) : Prop where
  locked : v.world.Locked
  supplied : v.world.Supplied

theorem Safe.neverWaits (h : v.Safe) : v.NeverWaits := by
  intro t ht n hn
  obtain ⟨i, hi⟩ := List.getElem?_of_mem ht
  obtain ⟨node, hnode⟩ := Option.isSome_iff_exists.mp (h.locked i t n hi hn).2
  have hone : t.pc.awaits n ≤ v.world.inFlight n := Tally.le_sumOver (f := Pc.awaits n ∘ Task.pc) ht
  rw [hn, Pc.awaits, if_pos rfl] at hone
  rw [World.queued_of_node hnode]
  exact hone.trans (h.supplied n node hnode)

theorem safe_init (g : FlowGraph M) (calls : List Call) : (init g calls).Safe where
  locked i t n hi hn := by
    simp only [init, World.init, List.getElem?_mapIdx, Option.map_eq_some_iff] at hi
    obtain ⟨call, -, rfl⟩ := hi
    cases hn
  supplied n node _ := by
    rw [init, World.inFlight_init]
    exact Nat.zero_le _

variable [Node M]

theorem walk_cases {l : Label} (h : v.walk l = some v') : ∃ t, v.world.tasks[l.task]? = some t ∧
    (World.Step v.world l.task t l.action v'.world ∨
      ∃ current packet, l.action = .send ∧ t.pc = .send current packet ∧
        ((∃ r, v'.world = v.world.finish l.task t r) ∨
          (∃ k, v.sendTarget l.task current = .kept k) ∧
            v'.world = v.world.move l.task t (.relock current))) := by
  have hstep : ∀ {f : World M → LiveWorld M} {t}, (∀ w, (f w).world = w) → v.world.tasks[l.task]? = some t →
      (v.world.step l).map f = some v' → World.Step v.world l.task t l.action v'.world := by
    intro f t hf ht h
    obtain ⟨w, hw, rfl⟩ := Option.map_eq_some_iff.mp h
    obtain ⟨t', ht', hs⟩ := World.step_iff.mp hw
    rw [Option.some.inj (ht.symm.trans ht'), hf]
    exact hs
  unfold walk at h
  split at h
  · cases h
  rename_i t ht
  refine ⟨t, ht, ?_⟩
  split at h
  · rename_i current packet haction hpc
    unfold send at h
    split at h
    · left
      obtain ⟨w, hw, rfl⟩ := Option.map_eq_some_iff.mp h
      rw [haction]
      exact .send hpc hw
    · rename_i k hk
      split at h
      · cases h
      · obtain ⟨queue, -, rfl⟩ := Option.map_eq_some_iff.mp h
        exact .inr ⟨current, packet, haction, hpc, .inr ⟨⟨k, hk⟩, rfl⟩⟩
    · obtain rfl := Option.some.inj h
      exact .inr ⟨current, packet, haction, hpc, .inl ⟨_, rfl⟩⟩
  · exact .inl (hstep (fun _ => rfl) ht h)
  · exact .inl (hstep (fun _ => rfl) ht h)

theorem safe_walk {l : Label} (hv : v.Safe) (hl : v.Harmless (.walk l)) (h : v.walk l = some v') : v'.Safe := by
  obtain ⟨t, ht, hs | ⟨current, packet, haction, hpc, ⟨r, hw⟩ | ⟨⟨k, hk⟩, hw⟩⟩⟩ := walk_cases h
  · exact ⟨World.locked_step hv.locked ht hs, World.supplied_step hv.supplied ht hs⟩
  · refine ⟨hw ▸ hv.locked.finish r, fun n node hnode => ?_⟩
    rw [hw] at hnode ⊢
    have htotal := World.total_finish (Pc.awaits n) v.world ht r
    have hle := hv.supplied n node hnode
    simp only [hpc, Pc.awaits, World.inFlight] at htotal hle ⊢
    omega
  · refine ⟨hw ▸ hv.locked.relock current, fun n node hnode => ?_⟩
    rw [hw] at hnode ⊢
    have htotal := World.total_move (Pc.awaits n) v.world ht (.relock current)
    have hle := hv.supplied n node hnode
    simp only [hpc, Pc.awaits, World.inFlight] at htotal hle ⊢
    by_cases hn : current = n
    · subst hn
      -- the queue in the graph has a packet to spare for the branch
      have hspare : v.world.inFlight current < v.world.graph.queued current := by
        obtain ⟨task, action⟩ := l
        obtain rfl : action = .send := haction
        exact hl t current packet ht hpc k hk (by rw [show v.world.graph.node current = some node from hnode]; rfl)
      rw [World.queued_of_node (show v.world.graph.node current = some node from hnode), World.inFlight] at hspare
      rw [if_pos rfl] at htotal
      omega
    · rw [if_neg hn] at htotal
      omega

omit [Node M] in
theorem takeOut_world (id : NodeId) (node : GraphNode M) (keep : Bool) (graph : FlowGraph M) :
    ((v.takeOut id node keep).withGraph graph).world = { v.world with graph := graph } := by
  cases keep <;> rfl

omit [Node M] in
theorem Safe.edit (hv : v.Safe) (hm : v.world.mutex = none) {graph : FlowGraph M}
    (hw : v'.world = { v.world with graph := graph })
    (hnodes : ∀ n node, graph.node n = some node →
      v.world.graph.node n = some node ∨ v.world.inFlight n ≤ node.queue.len) : v'.Safe where
  locked i t n hi hn := by
    rw [hw] at hi
    have hmutex := (hv.locked i t n hi hn).1
    rw [hm] at hmutex
    cases hmutex
  supplied n node hnode := by
    rw [hw] at hnode ⊢
    rcases hnodes n node hnode with hold | hle
    · exact hv.supplied n node hold
    · exact hle

omit [Node M] in
theorem node_of_insert {g g' : FlowGraph M} {id n : NodeId} {new node : GraphNode M}
    (hg : g'.nodes = g.nodes.insert id new) (h : g'.node n = some node) :
    g.node n = some node ∨ n = id ∧ node = new := by
  rw [FlowGraph.node, hg] at h
  by_cases hn : n = id
  · subst hn
    rw [AList.lookup_insert] at h
    exact .inr ⟨rfl, (Option.some.inj h).symm⟩
  · rw [AList.lookup_insert_ne hn] at h
    exact .inl h

omit [Node M] in
theorem node_of_erase {g g' : FlowGraph M} {id n : NodeId} {node : GraphNode M}
    (hg : g'.nodes = g.nodes.erase id) (h : g'.node n = some node) : g.node n = some node := by
  rw [FlowGraph.node, hg] at h
  by_cases hn : n = id
  · subst hn
    rw [AList.lookup_erase] at h
    cases h
  · rwa [AList.lookup_erase_ne hn] at h

theorem safe_swapNode (hv : v.Safe) (hm : v.world.mutex = none) {id : NodeId} {newModule : ArcNode M}
    {keep : Bool} (hl : v.Harmless (.edit (.swapNode id newModule keep))) :
    (v.apply (.swapNode id newModule keep)).Safe := by
  rcases v.world.graph.swapNode_cases id newModule with
    ⟨-, hs⟩ | ⟨old, hold, ⟨reason, hs⟩ | ⟨r, hr, hs⟩⟩ <;> rw [apply, hs]
  · exact hv
  · -- `migrate` panicked: the old node stays, with its queue
    refine hv.edit hm rfl fun n node hnode => ?_
    rcases node_of_insert rfl hnode with h | ⟨rfl, rfl⟩
    · exact .inl h
    · exact .inr (hv.supplied n old hold)
  · -- the new node's queue is empty, so no branch may be between its send and its receive
    refine hv.edit hm (takeOut_world id old.migrate.1 keep _) fun n node hnode => ?_
    rcases node_of_insert rfl hnode with h | ⟨rfl, rfl⟩
    · exact .inl h
    · exact .inr (hl old hold ⟨r, hr⟩ ▸ Nat.zero_le _)

theorem safe_removeNode (hv : v.Safe) (hm : v.world.mutex = none) (id : NodeId) (keep : Bool) :
    (v.apply (.removeNode id keep)).Safe := by
  cases hnode : v.world.graph.node id with
  | none =>
    rw [apply, FlowGraph.removeNode_none hnode]
    exact hv
  | some node =>
    obtain ⟨graph, hremove, hnodes⟩ := FlowGraph.removeNode_nodes hnode
    rw [apply, hremove]
    exact hv.edit hm (takeOut_world id node keep graph) fun n node h => .inl (node_of_erase hnodes h)

theorem safe_removeAndReconnect (hv : v.Safe) (hm : v.world.mutex = none) (id : NodeId) (keep : Bool) :
    (v.apply (.removeAndReconnect id keep)).Safe := by
  have hnodes : ∀ n node, (v.world.graph.removeAndReconnect id).1.node n = some node →
      v.world.graph.node n = some node ∨ v.world.inFlight n ≤ node.queue.len := by
    intro n node hnode
    rcases v.world.graph.removeAndReconnect_nodes id with h | h
    · -- a failed call may have added edges, never nodes
      exact .inl (by rwa [FlowGraph.node, h] at hnode)
    · exact .inl (node_of_erase h hnode)
  rw [apply]
  rcases hr : v.world.graph.removeAndReconnect id with ⟨graph, error | removed⟩ <;> rw [hr] at hnodes
  · exact hv.edit hm rfl hnodes
  · exact hv.edit hm (takeOut_world id removed keep graph) hnodes

theorem safe_edit {e : LiveEdit M} (hv : v.Safe) (hm : v.world.mutex = none) (hl : v.Harmless (.edit e)) :
    (v.apply e).Safe := by
  cases e with
  | swapNode id newModule keep => exact safe_swapNode hv hm hl
  | removeNode id keep => exact safe_removeNode hv hm id keep
  | removeAndReconnect id keep => exact safe_removeAndReconnect hv hm id keep
  | addNode node =>
    refine hv.edit hm rfl fun n node' hnode => ?_
    rcases node_of_insert (FlowGraph.addNode_nodes _ _) hnode with h | ⟨rfl, rfl⟩
    · exact .inl h
    · exact .inr hl
  | addKept index =>
    rw [apply]
    cases hk : v.kept[index]? with
    | none => exact hv
    | some k =>
      refine hv.edit hm rfl fun n node hnode => ?_
      rcases node_of_insert (FlowGraph.addNode_nodes _ _) hnode with h | ⟨rfl, rfl⟩
      · exact .inl h
      · exact .inr (hl k hk)
  | dropKept index => exact ⟨hv.locked, hv.supplied⟩

theorem safe_step {l : LiveLabel M} (hv : v.Safe) (hl : v.Harmless l) (h : v.step l = some v') : v'.Safe := by
  cases l with
  | walk l => exact safe_walk hv hl h
  | edit e =>
    obtain ⟨hm, ⟨⟩⟩ := Option.ite_none_right_eq_some.mp h
    exact safe_edit hv hm hl

/-- Edits that strand no branch never make one wait for its packet, in any interleaving. -/
theorem live_edits_never_wedge {g : FlowGraph M} {calls : List Call} {ls : List (LiveLabel M)}
    (hl : Along step Harmless (init g calls) ls) (h : run step (init g calls) ls = some v) : v.NeverWaits :=
  (run_preserves (fun _ _ _ hv hl hs => safe_step hv hl hs) (safe_init g calls) hl h).neverWaits

def relayCall : Call := ⟨⟨0⟩, stubPacket 7, 1⟩

def swapSource : LiveLabel StubNode := .edit (.swapNode ⟨0⟩ ⟨9, 1, ⟨"stub", .source, .passes⟩⟩ false)

def relaySwaps : List (LiveLabel StubNode) :=
  [swapSource, .walk ⟨0, .enter⟩, .walk ⟨0, .admission 0⟩, .walk ⟨0, .send⟩, .walk ⟨0, .relock⟩,
    .walk ⟨0, .recv 0⟩, swapSource, .walk ⟨0, .admission 0⟩]

theorem relaySwaps_harmless : Along step Harmless (init relay [relayCall]) relaySwaps := by
  refine along_cons rfl (fun _ _ _ => rfl) (along_cons rfl trivial (along_cons rfl trivial
    (along_cons rfl ?_ (along_cons rfl trivial (along_cons rfl trivial
      (along_cons rfl (fun _ _ _ => rfl) (along_cons rfl trivial trivial)))))))
  intro t n packet ht hpc k hk
  cases ht
  cases hpc
  cases hk

theorem live_edits_never_wedge_relay :
    ∃ v, run step (init relay [relayCall]) relaySwaps = some v ∧ v.NeverWaits :=
  ⟨_, rfl, live_edits_never_wedge relaySwaps_harmless rfl⟩

/-- The source is swapped while the branch's packet is in its queue. -/
def strandingSwap : List (LiveLabel StubNode) :=
  [.walk ⟨0, .enter⟩, .walk ⟨0, .admission 0⟩, .walk ⟨0, .send⟩, swapSource, .walk ⟨0, .relock⟩]

/-- The branch holds the graph lock and waits for a packet that nobody will send. -/
theorem strandingSwap_wedges : ∃ v, run step (init relay [relayCall]) strandingSwap = some v ∧
    ¬ v.NeverWaits ∧ ∀ elapsed, v.step (.walk ⟨0, .recv elapsed⟩) = none := by
  refine ⟨_, rfl, fun h => ?_, fun elapsed => rfl⟩
  have hpos := h _ List.mem_cons_self ⟨0⟩ rfl
  revert hpos
  decide

end LiveWorld
end Nyarix
