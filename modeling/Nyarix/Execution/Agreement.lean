import Nyarix.Execution.Parallel
import Nyarix.Execution.Transparency

/-! The two engines on a graph without parallel edges. A call that runs alone stays one branch,
whose steps between two waits for the graph lock are one round of the sequential walk. -/

namespace Nyarix
open Transition

def Outcome.result : Outcome → BranchResult
  | .returned (.ok (some packet)) => .ok [packet]
  | .returned (.ok none) => .ok []
  | .returned (.error e) => .err e
  | .panicked reason => .panicked reason

def Hop.pc : Hop → Pc
  | .stop outcome => .done outcome.result
  | .next current packet => .lock current packet

/-- The clock readings of a run, round by round; a round that ends before its module call, or has
not come to it yet, measures no time. -/
def readings : Option Instant → List Label → List Reading
  | now, [] => now.toList.map (⟨·, 0⟩)
  | now, ⟨_, action⟩ :: ls =>
    match action with
    | .admission now => readings (some now) ls
    | .recv elapsed => ⟨now.getD 0, elapsed⟩ :: readings none ls
    | _ => readings now ls

variable {M : Type} [Node M]

def FlowGraph.NoParallel (g : FlowGraph M) : Prop := ∀ edge ∈ g.edges, edge.edgeType ≠ .parallel

namespace World

def stepCalls (w : World M) (l : Label) : List ProcessCall :=
  match l.action, (w.tasks[l.task]?).map Task.pc with
  | .recv _, some (.recv current) =>
    match w.graph.node current with
    | none => []
    | some node =>
      match node.queue.tryRecvPrioritized with
      | none => []
      | some (packet, _) => node.processCalls current packet
  | _, _ => []

def runCalls : World M → List Label → List ProcessCall
  | _, [] => []
  | w, l :: ls =>
    w.stepCalls l ++
      match w.step l with
      | some w => runCalls w ls
      | none => []

def lone (semaphore : CallId → Nat) (g : FlowGraph M) (mutex : Option TaskId) (pc : Pc) : World M :=
  ⟨g, mutex, semaphore, [⟨0, none, false, false, pc⟩]⟩

theorem runCalls_cons {w w' : World M} {l : Label} (h : w.step l = some w') (ls : List Label) :
    w.runCalls (l :: ls) = w.stepCalls l ++ w'.runCalls ls := by
  rw [runCalls, h]

theorem runCalls_append {w w' : World M} {ls : List Label} (h : run step w ls = some w') (ms : List Label) :
    w.runCalls (ls ++ ms) = w.runCalls ls ++ w'.runCalls ms := by
  induction ls generalizing w with
  | nil =>
    obtain rfl := Option.some.inj h
    rfl
  | cons l ls ih =>
    obtain ⟨v, hv, h⟩ := run_cons.mp h
    rw [List.cons_append, runCalls_cons hv, runCalls_cons hv, ih h, List.append_assoc]

variable {s : CallId → Nat} {g : FlowGraph M} {mutex : Option TaskId} {pc : Pc} {w : World M} {l : Label}

theorem lone_step (h : (lone s g mutex pc).step l = some w) :
    l.task = 0 ∧ Step (lone s g mutex pc) 0 ⟨0, none, false, false, pc⟩ l.action w := by
  obtain ⟨t, ht, hs⟩ := step_iff.mp h
  rcases l with ⟨_ | k, action⟩
  · obtain rfl := Option.some.inj ht
    exact ⟨rfl, hs⟩
  · cases ht

theorem lone_label (h : (lone s g mutex pc).step l = some w) :
    match pc with
    | .start .. => l = ⟨0, .enter⟩
    | .lock _ _ => ∃ now, l = ⟨0, .admission now⟩
    | .send _ _ => l = ⟨0, .send⟩
    | .relock _ => l = ⟨0, .relock⟩
    | .recv _ => ∃ elapsed, l = ⟨0, .recv elapsed⟩
    | .done _ => False
    | _ => True := by
  obtain ⟨htask, hs⟩ := lone_step h
  obtain ⟨_, action⟩ := l
  obtain rfl := htask
  cases hs with
  | enter hpc | send hpc | relock hpc =>
    obtain rfl : pc = _ := hpc
    rfl
  | admission hpc | recv hpc =>
    obtain rfl : pc = _ := hpc
    exact ⟨_, rfl⟩
  | acquire hpc | join hpc | finish hpc =>
    obtain rfl : pc = _ := hpc
    trivial
  | abort ha => cases ha

theorem run_done {r : BranchResult} {ls : List Label} (h : run step (lone s g none (.done r)) ls = some w) :
    ls = [] ∧ w = lone s g none (.done r) := by
  cases ls with
  | nil => exact ⟨rfl, (Option.some.inj h).symm⟩
  | cons l ls =>
    obtain ⟨w', h', -⟩ := run_cons.mp h
    exact (lone_label h').elim

theorem admission_cases (hq : g.QueuesEmpty) (current : NodeId) (packet : Packet) (now : Instant) :
    (∃ e, g.admission current packet now = .error e ∧
      ∀ elapsed, g.visit current packet ⟨now, elapsed⟩ = (g, [], .stop (.returned (.error e)))) ∨
    ∃ node, g.node current = some node ∧
      g.admission current packet now = .ok (packet.recordHop current now) ∧
      ∀ elapsed, g.visit current packet ⟨now, elapsed⟩ =
        (g.modifyNode current fun _ => (node.processTimed (packet.recordHop current now) elapsed).1,
          node.processCalls current (packet.recordHop current now),
          g.onward current (node.processTimed (packet.recordHop current now) elapsed).2) := by
  unfold FlowGraph.admission FlowGraph.visit
  cases hnode : g.node current with
  | none => exact .inl ⟨_, rfl, fun _ => rfl⟩
  | some node =>
    cases hlimit : node.checkPayloadLimit packet with
    | error e => exact .inl ⟨e, by simp only [hlimit], fun _ => by simp only [hlimit]⟩
    | ok =>
      refine .inr ⟨node, rfl, by simp only [hlimit], fun elapsed => ?_⟩
      simp only [hlimit, GraphNode.enqueueAndDequeueSync_empty (hq current node hnode)]

omit [Node M] in
theorem branchStep_onward (hpar : g.NoParallel) (current : NodeId) (outcome : Outcome) :
    g.branchStep current outcome =
      match g.onward current outcome with
      | .stop outcome => .finished outcome.result
      | .next current packet => .goto current packet := by
  have htargets : ∀ packet, parallelTargets (((g.edgesFrom current).filter (·.accepts packet)).map
      fun edge => (edge.edgeType, edge.toNode)) = [] := by
    intro packet
    refine List.map_eq_nil_iff.mpr (List.filter_eq_nil_iff.mpr fun next hnext hp => ?_)
    obtain ⟨edge, hedge, rfl⟩ := List.mem_map.mp hnext
    exact hpar edge (List.mem_filter.mp (List.mem_filter.mp hedge).1).1 (of_decide_eq_true hp)
  rcases outcome with (e | _ | packet) | reason
  · rfl
  · rfl
  · simp only [FlowGraph.branchStep, FlowGraph.walkStep, FlowGraph.onward]
    split_ifs with hexit
    · rfl
    · simp only [runBranch, htargets, if_true, List.head?_map, List.head?_filter]
      cases (g.edgesFrom current).find? (·.accepts packet) <;> rfl
  · rfl

theorem step_admission (current : NodeId) (packet : Packet) (now : Instant) :
    (lone s g none (.lock current packet)).step ⟨0, .admission now⟩ =
      some (lone s g none
        (match g.admission current packet now with
        | .error e => .done (.err e)
        | .ok packet => .send current packet)) := by
  change some ((lone s g none (.lock current packet)).admission 0 _ current packet now) = _
  unfold admission
  rw [show (lone s g none (.lock current packet)).graph = g from rfl]
  cases g.admission current packet now <;> rfl

theorem step_send {node : GraphNode M} {queue : NodeQueue} {current : NodeId} {packet : Packet}
    (hnode : g.node current = some node) (hsend : node.queue.trySend packet = some queue) :
    (lone s g none (.send current packet)).step ⟨0, .send⟩ =
      some (lone s (g.modifyNode current ({ · with queue := queue })) none (.relock current)) := by
  have hgraph : (lone s g none (.send current packet)).graph.node current = some node := hnode
  change (lone s g none _).send 0 _ current packet = _
  rw [send, hgraph]
  simp only [hsend]
  rfl

theorem step_relock {node : GraphNode M} {current : NodeId} (hnode : g.node current = some node) :
    (lone s g none (.relock current)).step ⟨0, .relock⟩ = some (lone s g (some 0) (.recv current)) := by
  have hgraph : (lone s g none (.relock current)).graph.node current = some node := hnode
  change some ((lone s g none _).relock 0 _ current) = _
  rw [relock, hgraph]
  rfl

theorem receive_sent (hpar : g.NoParallel) {node : GraphNode M} {queue : NodeQueue} {current : NodeId}
    {packet : Packet} (hnode : g.node current = some node)
    (hrecv : queue.tryRecvPrioritized = some (packet, node.queue)) (elapsed : Duration) :
    (g.modifyNode current ({ · with queue := queue })).receive current elapsed =
      some (g.modifyNode current fun _ => (node.processTimed packet elapsed).1,
        match g.onward current (node.processTimed packet elapsed).2 with
        | .stop outcome => .finished outcome.result
        | .next current packet => .goto current packet) := by
  have hnode' : (g.modifyNode current ({ · with queue := queue })).node current =
      some { node with queue := queue } := by
    rw [FlowGraph.node_modifyNode, if_pos rfl, hnode]
    rfl
  have hover : (g.modifyNode current ({ · with queue := queue })).modifyNode current
      (fun _ => (node.processTimed packet elapsed).1) =
        g.modifyNode current fun _ => (node.processTimed packet elapsed).1 := by
    rw [FlowGraph.modifyNode, FlowGraph.modifyNode, HashMap.modify_modify_const]
    rfl
  unfold FlowGraph.receive
  simp only [hnode', hrecv, hover]
  have hstep := branchStep_onward (g := g.modifyNode current fun _ => (node.processTimed packet elapsed).1) hpar
    current (node.processTimed packet elapsed).2
  exact congrArg (fun step => some (_, step)) hstep

theorem step_recv (hpar : g.NoParallel) {node : GraphNode M} {queue : NodeQueue} {current : NodeId}
    {packet : Packet} (hnode : g.node current = some node)
    (hrecv : queue.tryRecvPrioritized = some (packet, node.queue)) (elapsed : Duration) :
    (lone s (g.modifyNode current ({ · with queue := queue })) (some 0) (.recv current)).step ⟨0, .recv elapsed⟩ =
      some (lone s (g.modifyNode current fun _ => (node.processTimed packet elapsed).1) none
        (g.onward current (node.processTimed packet elapsed).2).pc) := by
  change World.recv (lone s _ _ _) 0 _ current elapsed = _
  rw [World.recv, show (lone s (g.modifyNode current ({ · with queue := queue })) (some 0) (.recv current)).graph =
    g.modifyNode current ({ · with queue := queue }) from rfl, receive_sent hpar hnode hrecv]
  cases g.onward current (node.processTimed packet elapsed).2 <;> rfl

omit [Node M] in
theorem stepCalls_recv {node : GraphNode M} {queue : NodeQueue} {current : NodeId} {packet : Packet}
    (hnode : g.node current = some node) (hrecv : queue.tryRecvPrioritized = some (packet, node.queue))
    (elapsed : Duration) :
    (lone s (g.modifyNode current ({ · with queue := queue })) (some 0) (.recv current)).stepCalls
      ⟨0, .recv elapsed⟩ = node.processCalls current packet := by
  have hnode' : (lone s (g.modifyNode current ({ · with queue := queue })) (some 0) (.recv current)).graph.node
      current = some { node with queue := queue } := by
    change (g.modifyNode current _).node current = _
    rw [FlowGraph.node_modifyNode, if_pos rfl, hnode]
    rfl
  simp only [stepCalls, lone, List.getElem?_cons_zero, Option.map_some] at hnode' ⊢
  simp only [hnode', hrecv]
  rfl

/-- A run of a lone call from the graph lock on: it has not come to its module call and can go on,
or it has failed before, or it completes a round of the sequential walk and continues from there. -/
theorem lone_run_cases (hq : g.QueuesEmpty) (hpar : g.NoParallel) {current : NodeId} {packet : Packet}
    {ls : List Label} (h : run step (lone s g none (.lock current packet)) ls = some w) :
    (w.returned 0 = none ∧ Enabled step w ∧ (lone s g none (.lock current packet)).runCalls ls = []) ∨
    (∃ now e, ls = [⟨0, .admission now⟩] ∧ w = lone s g none (.done (.err e)) ∧
      ∀ elapsed, g.visit current packet ⟨now, elapsed⟩ = (g, [], .stop (.returned (.error e)))) ∨
    ∃ now elapsed rest, ls = ⟨0, .admission now⟩ :: ⟨0, .send⟩ :: ⟨0, .relock⟩ :: ⟨0, .recv elapsed⟩ :: rest ∧
      run step (lone s (g.visit current packet ⟨now, elapsed⟩).1 none
        (g.visit current packet ⟨now, elapsed⟩).2.2.pc) rest = some w ∧
      (lone s g none (.lock current packet)).runCalls ls = (g.visit current packet ⟨now, elapsed⟩).2.1 ++
        (lone s (g.visit current packet ⟨now, elapsed⟩).1 none
          (g.visit current packet ⟨now, elapsed⟩).2.2.pc).runCalls rest := by
  -- the run may end at each of the four awaits of a round
  rcases ls with _ | ⟨l, ls⟩
  · obtain rfl := Option.some.inj h
    exact .inl ⟨rfl, ⟨_, _, step_admission current packet 0⟩, rfl⟩
  obtain ⟨w₁, h₁, h⟩ := run_cons.mp h
  obtain ⟨now, rfl⟩ := lone_label h₁
  obtain rfl := Option.some.inj (h₁.symm.trans (step_admission current packet now))
  rcases admission_cases hq current packet now with ⟨e, hadmission, hvisit⟩ | ⟨node, hnode, hadmission, hvisit⟩
  · simp only [hadmission] at h₁ h
    obtain ⟨rfl, rfl⟩ := run_done h
    exact .inr (.inl ⟨now, e, rfl, rfl, hvisit⟩)
  simp only [hadmission] at h₁ h
  obtain ⟨queue, hsend, hrecv⟩ := NodeQueue.trySend_tryRecv (hq current node hnode) (packet.recordHop current now)
  have hnode₁ : (g.modifyNode current ({ · with queue := queue })).node current = some { node with queue := queue } := by
    rw [FlowGraph.node_modifyNode, if_pos rfl, hnode]
    rfl
  rcases ls with _ | ⟨l, ls⟩
  · obtain rfl := Option.some.inj h
    exact .inl ⟨rfl, ⟨_, _, step_send hnode hsend⟩, by rw [runCalls_cons h₁]; rfl⟩
  obtain ⟨w₂, h₂, h⟩ := run_cons.mp h
  obtain rfl : l = ⟨0, .send⟩ := lone_label h₂
  obtain rfl := Option.some.inj (h₂.symm.trans (step_send hnode hsend))
  rcases ls with _ | ⟨l, ls⟩
  · obtain rfl := Option.some.inj h
    exact .inl ⟨rfl, ⟨_, _, step_relock hnode₁⟩, by rw [runCalls_cons h₁, runCalls_cons h₂]; rfl⟩
  obtain ⟨w₃, h₃, h⟩ := run_cons.mp h
  obtain rfl : l = ⟨0, .relock⟩ := lone_label h₃
  obtain rfl := Option.some.inj (h₃.symm.trans (step_relock hnode₁))
  rcases ls with _ | ⟨l, ls⟩
  · obtain rfl := Option.some.inj h
    exact .inl ⟨rfl, ⟨_, _, step_recv hpar hnode hrecv 0⟩, by
      rw [runCalls_cons h₁, runCalls_cons h₂, runCalls_cons h₃]; rfl⟩
  obtain ⟨w₄, h₄, h⟩ := run_cons.mp h
  obtain ⟨elapsed, rfl⟩ := lone_label h₄
  obtain rfl := Option.some.inj (h₄.symm.trans (step_recv hpar hnode hrecv elapsed))
  refine .inr (.inr ⟨now, elapsed, ls, rfl, by rw [hvisit]; exact h, ?_⟩)
  rw [runCalls_cons h₁, runCalls_cons h₂, runCalls_cons h₃, runCalls_cons h₄,
    stepCalls_recv hnode hrecv, hvisit]
  rfl

theorem lone_round (hq : g.QueuesEmpty) (hpar : g.NoParallel) (current : NodeId) (packet : Packet)
    (reading : Reading) :
    ∃ ls, run step (lone s g none (.lock current packet)) ls =
        some (lone s (g.visit current packet reading).1 none (g.visit current packet reading).2.2.pc) ∧
      (lone s g none (.lock current packet)).runCalls ls = (g.visit current packet reading).2.1 := by
  obtain ⟨now, elapsed⟩ := reading
  have h₁ := step_admission (s := s) (g := g) current packet now
  rcases admission_cases hq current packet now with ⟨e, hadmission, hvisit⟩ | ⟨node, hnode, hadmission, hvisit⟩ <;>
    simp only [hadmission] at h₁ <;> rw [hvisit]
  · exact ⟨[⟨0, .admission now⟩], run_cons.mpr ⟨_, h₁, rfl⟩, by rw [runCalls_cons h₁]; rfl⟩
  obtain ⟨queue, hsend, hrecv⟩ := NodeQueue.trySend_tryRecv (hq current node hnode) (packet.recordHop current now)
  have hnode₁ : (g.modifyNode current ({ · with queue := queue })).node current = some { node with queue := queue } := by
    rw [FlowGraph.node_modifyNode, if_pos rfl, hnode]
    rfl
  have h₂ := step_send (s := s) hnode hsend
  have h₃ := step_relock (s := s) hnode₁
  have h₄ := step_recv (s := s) hpar hnode hrecv elapsed
  refine ⟨[⟨0, .admission now⟩, ⟨0, .send⟩, ⟨0, .relock⟩, ⟨0, .recv elapsed⟩], ?_, ?_⟩
  · simp only [run, h₁, h₂, h₃, h₄, Option.bind_some]
  · rw [runCalls_cons h₁, runCalls_cons h₂, runCalls_cons h₃, runCalls_cons h₄, stepCalls_recv hnode hrecv]
    exact List.append_nil _

theorem noParallel_visit (hq : g.QueuesEmpty) (hpar : g.NoParallel) (current : NodeId) (packet : Packet)
    (reading : Reading) : (g.visit current packet reading).1.NoParallel := by
  obtain ⟨now, elapsed⟩ := reading
  rcases admission_cases hq current packet now with ⟨e, -, hvisit⟩ | ⟨node, -, -, hvisit⟩ <;> rw [hvisit]
  · exact hpar
  · exact hpar

theorem queuesEmpty_visit (hq : g.QueuesEmpty) (current : NodeId) (packet : Packet) (reading : Reading) :
    (g.visit current packet reading).1.QueuesEmpty := by
  rw [FlowGraph.visit_eq_reference hq]
  exact hq.referenceVisit current packet reading

/-- The calls a run made, the result it returned and the graph it left are those of a trip. -/
structure Matches (start : World M) (ls : List Label) (w : World M) (trip : Trip M) : Prop where
  calls : start.runCalls ls = trip.calls
  result : w.returned 0 = trip.outcome.map Outcome.result
  graph : w.graph = trip.graph

theorem exists_lone_run (hq : g.QueuesEmpty) (hpar : g.NoParallel) (rs : List Reading) (current : NodeId)
    (packet : Packet) : ∃ ls w, run step (lone s g none (.lock current packet)) ls = some w ∧
      Matches (lone s g none (.lock current packet)) ls w (FlowGraph.walk rs g current packet) := by
  induction rs generalizing g current packet with
  | nil => exact ⟨[], _, rfl, rfl, rfl, rfl⟩
  | cons reading rs ih =>
    obtain ⟨ls, hrun, hcalls⟩ := lone_round (s := s) hq hpar current packet reading
    have hq' := queuesEmpty_visit hq current packet reading
    have hpar' := noParallel_visit hq hpar current packet reading
    unfold FlowGraph.walk
    generalize g.visit current packet reading = round at hrun hcalls hq' hpar'
    rcases round with ⟨g', calls, outcome | ⟨next, packet'⟩⟩
    · exact ⟨ls, _, hrun, hcalls, rfl, rfl⟩
    · obtain ⟨ms, w, hrest, hw⟩ := ih hq' hpar' next packet'
      refine ⟨ls ++ ms, w, run_append.mpr ⟨_, hrun, hrest⟩, ?_, hw.result, hw.graph⟩
      exact (runCalls_append hrun ms).trans (congrArg₂ (· ++ ·) hcalls hw.calls)

/-- Whatever the branch does, it walks as its readings say, and as far as it has returned it has
come to the end of that walk. -/
theorem lone_run_matches (hq : g.QueuesEmpty) (hpar : g.NoParallel) {current : NodeId} {packet : Packet}
    {ls : List Label} (h : run step (lone s g none (.lock current packet)) ls = some w) :
    (lone s g none (.lock current packet)).runCalls ls <+:
        (FlowGraph.walk (readings none ls) g current packet).calls ∧
      (w.returned 0 = none → Enabled step w) ∧
      (w.returned 0 ≠ none → Matches (lone s g none (.lock current packet)) ls w
        (FlowGraph.walk (readings none ls) g current packet)) := by
  -- on the length of the run, a round at a time
  induction hn : ls.length using Nat.strongRecOn generalizing ls g current packet with
  | ind n ih =>
    rcases lone_run_cases hq hpar h with ⟨hnone, henabled, hcalls⟩ | ⟨now, e, rfl, rfl, hvisit⟩ |
        ⟨now, elapsed, rest, rfl, hrest, hcalls⟩
    · exact ⟨by rw [hcalls]; exact List.nil_prefix, fun _ => henabled, fun hr => absurd hnone hr⟩
    · have hwalk : FlowGraph.walk (readings none [⟨0, .admission now⟩]) g current packet =
          ⟨g, [], some (.returned (.error e))⟩ := by
        rw [show readings none [⟨0, .admission now⟩] = [⟨now, 0⟩] from rfl, FlowGraph.walk, hvisit]
      have hstep : (lone s g none (.lock current packet)).runCalls [⟨0, .admission now⟩] = [] := by
        obtain ⟨w₁, h₁, -⟩ := run_cons.mp h
        rw [runCalls_cons h₁]
        rfl
      rw [hwalk, hstep]
      exact ⟨List.nil_prefix, fun hr => (by cases hr), fun _ => ⟨hstep, rfl, rfl⟩⟩
    · have hq' := queuesEmpty_visit hq current packet ⟨now, elapsed⟩
      have hpar' := noParallel_visit hq hpar current packet ⟨now, elapsed⟩
      have hreadings : readings none (⟨0, .admission now⟩ :: ⟨0, .send⟩ :: ⟨0, .relock⟩ :: ⟨0, .recv elapsed⟩ :: rest) =
        ⟨now, elapsed⟩ :: readings none rest := rfl
      rw [hreadings]
      unfold FlowGraph.walk
      generalize g.visit current packet ⟨now, elapsed⟩ = round at hrest hcalls hq' hpar'
      rcases round with ⟨g', calls, outcome | ⟨next, packet'⟩⟩
      · obtain ⟨rfl, rfl⟩ := run_done hrest
        rw [runCalls, List.append_nil] at hcalls
        exact ⟨by rw [hcalls], fun hr => (by cases hr), fun _ => ⟨hcalls, rfl, rfl⟩⟩
      · have hshorter : rest.length < n := by
          subst hn
          simp only [List.length_cons]
          omega
        obtain ⟨hpre, henabled, hret⟩ := ih rest.length hshorter hq' hpar' hrest rfl
        refine ⟨?_, henabled, fun hr => ?_⟩
        · rw [hcalls]
          exact (List.prefix_append_right_inj calls).mpr hpre
        · have hm := hret hr
          exact ⟨hcalls.trans (congrArg (calls ++ ·) hm.calls), hm.result, hm.graph⟩

def entered (g : FlowGraph M) (call : Call) : Pc :=
  if call.entry ∈ g.entryPoints then
    if call.permits ≤ maxPermits then .lock call.entry call.packet else .done (.panicked tooManyPermits)
  else .done (.err (missingNode call.entry))

theorem step_enter (g : FlowGraph M) (call : Call) : (init g [call]).step ⟨0, .enter⟩ =
    some (lone (init g [call]).semaphore g none (entered g call)) := by
  change some ((init g [call]).enter 0 _ call.entry call.packet call.permits) = _
  unfold enter entered
  rw [show (init g [call]).graph = g from rfl]
  split_ifs <;> rfl

theorem runCalls_enter (g : FlowGraph M) (call : Call) (ls : List Label) :
    (init g [call]).runCalls (⟨0, .enter⟩ :: ls) =
      (lone (init g [call]).semaphore g none (entered g call)).runCalls ls :=
  runCalls_cons (step_enter g call) ls

theorem run_enter {call : Call} {ls : List Label} (h : run step (init g [call]) ls = some w) :
    ls = [] ∧ w = init g [call] ∨ ∃ rest, ls = ⟨0, .enter⟩ :: rest ∧
      run step (lone (init g [call]).semaphore g none (entered g call)) rest = some w := by
  cases ls with
  | nil => exact .inl ⟨rfl, (Option.some.inj h).symm⟩
  | cons l rest =>
    obtain ⟨w₁, h₁, hrest⟩ := run_cons.mp h
    obtain rfl : l = ⟨0, .enter⟩ := lone_label h₁
    obtain rfl := Option.some.inj (h₁.symm.trans (step_enter g call))
    exact .inr ⟨rest, rfl, hrest⟩

/-- The engines agree on a call. Whatever the clock reads, a run of the parallel call makes the module calls
of the sequential walk, returns its result and leaves its graph; every run makes the calls of a sequential
walk, is never stuck, and when it has returned it matches that walk and the queues are empty. -/
structure EnginesAgree (g : FlowGraph M) (call : Call) : Prop where
  walks : ∀ rs, ∃ ls w, run step (init g [call]) ls = some w ∧
    Matches (init g [call]) ls w (g.executeSequential call.entry call.packet rs)
  calls : ∀ ls w, run step (init g [call]) ls = some w →
    (init g [call]).runCalls ls <+: (g.executeSequential call.entry call.packet (readings none ls)).calls
  moves : ∀ ls w, run step (init g [call]) ls = some w → w.returned 0 = none → Enabled step w
  results : ∀ ls w, run step (init g [call]) ls = some w → w.returned 0 ≠ none → w.graph.QueuesEmpty ∧
    Matches (init g [call]) ls w (g.executeSequential call.entry call.packet (readings none ls))

omit [Node M] in
theorem entered_of_fits {call : Call} (hfits : call.entry ∈ g.entryPoints → call.permits ≤ maxPermits) :
    entered g call = if call.entry ∈ g.entryPoints then .lock call.entry call.packet
      else .done (.err (missingNode call.entry)) := by
  unfold entered
  by_cases hentry : call.entry ∈ g.entryPoints
  · rw [if_pos hentry, if_pos hentry, if_pos (hfits hentry)]
  · rw [if_neg hentry, if_neg hentry]

theorem exists_matching_run (hq : g.QueuesEmpty) (hpar : g.NoParallel) {call : Call}
    (hfits : call.entry ∈ g.entryPoints → call.permits ≤ maxPermits) (rs : List Reading) :
    ∃ ls w, run step (init g [call]) ls = some w ∧
      Matches (init g [call]) ls w (g.executeSequential call.entry call.packet rs) := by
  have henter := step_enter g call
  have hcalls := runCalls_enter g call
  rw [entered_of_fits hfits] at henter hcalls
  unfold FlowGraph.executeSequential
  split_ifs at henter hcalls ⊢ with hentry
  · obtain ⟨ls, w, hrun, hw⟩ := exists_lone_run (s := (init g [call]).semaphore) hq hpar rs call.entry call.packet
    exact ⟨⟨0, .enter⟩ :: ls, w, run_cons.mpr ⟨_, henter, hrun⟩, (hcalls ls).trans hw.calls, hw.result, hw.graph⟩
  · exact ⟨[⟨0, .enter⟩], _, run_cons.mpr ⟨_, henter, rfl⟩, hcalls [], rfl, rfl⟩

theorem run_matches (hq : g.QueuesEmpty) (hpar : g.NoParallel) {call : Call}
    (hfits : call.entry ∈ g.entryPoints → call.permits ≤ maxPermits) {ls : List Label}
    (h : run step (init g [call]) ls = some w) :
    (init g [call]).runCalls ls <+: (g.executeSequential call.entry call.packet (readings none ls)).calls ∧
      (w.returned 0 = none → Enabled step w) ∧
      (w.returned 0 ≠ none → w.graph.QueuesEmpty ∧ Matches (init g [call]) ls w
        (g.executeSequential call.entry call.packet (readings none ls))) := by
  rcases run_enter h with ⟨rfl, rfl⟩ | ⟨rest, rfl, hrest⟩
  · exact ⟨List.nil_prefix, fun _ => ⟨_, _, step_enter g call⟩, fun hr => absurd rfl hr⟩
  have hcalls := runCalls_enter g call rest
  have hreadings : readings none (⟨0, .enter⟩ :: rest) = readings none rest := rfl
  rw [entered_of_fits hfits] at hrest hcalls
  rw [hreadings]
  unfold FlowGraph.executeSequential
  split_ifs at hrest hcalls ⊢ with hentry
  · obtain ⟨hpre, henabled, hret⟩ := lone_run_matches hq hpar hrest
    refine ⟨hcalls ▸ hpre, henabled, fun hr => ?_⟩
    have hw := hret hr
    have hempty := (FlowGraph.walk_eq_reference hq (readings none rest) call.entry call.packet).2
    exact ⟨hw.graph ▸ hempty, hcalls.trans hw.calls, hw.result, hw.graph⟩
  · obtain ⟨rfl, rfl⟩ := run_done hrest
    exact ⟨by rw [hcalls]; exact List.nil_prefix, fun hr => (by cases hr), fun _ => ⟨hq, hcalls, rfl, rfl⟩⟩

theorem not_agree_of_overfull {call : Call} (hentry : call.entry ∈ g.entryPoints)
    (hover : maxPermits < call.permits) : ¬ EnginesAgree g call := by
  intro hagree
  have hpc : entered g call = .done (.panicked tooManyPermits) := by
    rw [entered, if_pos hentry, if_neg (Nat.not_le.mpr hover)]
  have hrun : run step (init g [call]) [⟨0, .enter⟩] =
      some (lone (init g [call]).semaphore g none (.done (.panicked tooManyPermits))) :=
    run_cons.mpr ⟨_, step_enter g call, by rw [hpc]; rfl⟩
  obtain ⟨-, hmatches⟩ := hagree.results _ _ hrun nofun
  have hresult := hmatches.result
  rw [show readings none [⟨0, .enter⟩] = [] from rfl, FlowGraph.executeSequential, if_pos hentry] at hresult
  cases hresult

omit [Node M] in
theorem permits_le_iff (call : Call) : call.permits ≤ maxPermits ↔ call.maxConcurrentBranches ≤ maxPermits :=
  max_le_iff.trans (and_iff_left (by decide))

/-- On a graph without parallel edges, with empty queues and no other call, the engines agree exactly on the
calls that are refused at their entry or can have a semaphore. -/
theorem engines_agree_iff (hq : g.QueuesEmpty) (hpar : g.NoParallel) (call : Call) :
    EnginesAgree g call ↔ (call.entry ∈ g.entryPoints → call.maxConcurrentBranches ≤ maxPermits) := by
  rw [← permits_le_iff]
  constructor
  · intro hagree hentry
    by_contra hover
    exact not_agree_of_overfull hentry (Nat.lt_of_not_le hover) hagree
  · intro hfits
    have hruns := fun ls w (h : run step (init g [call]) ls = some w) => run_matches hq hpar hfits h
    exact {
      walks := exists_matching_run hq hpar hfits
      calls := fun ls w h => (hruns ls w h).1
      moves := fun ls w h => (hruns ls w h).2.1
      results := fun ls w h => (hruns ls w h).2.2 }

theorem engines_agree_iff_relay : EnginesAgree relay ⟨⟨0⟩, stubPacket 7, 1⟩ :=
  (engines_agree_iff (FlowGraph.queuesEmpty_of_entries (by decide)) (by unfold FlowGraph.NoParallel; decide)
    ⟨⟨0⟩, stubPacket 7, 1⟩).mpr fun _ => by decide

/-- A call without a limit, of `usize::MAX` branches, unwinds; the sequential one returns its packet. -/
theorem unlimited_call_unwinds :
    (∃ w, run step (init relay [⟨⟨0⟩, stubPacket 7, 2 ^ 64 - 1⟩]) [⟨0, .enter⟩] = some w ∧
      w.returned 0 = some (.panicked tooManyPermits)) ∧
    (relay.executeSequential ⟨0⟩ (stubPacket 7) [⟨0, 1⟩, ⟨2, 1⟩]).outcome =
      some (.returned (.ok (some (stubPacket 7)))) ∧
    ¬ EnginesAgree relay ⟨⟨0⟩, stubPacket 7, 2 ^ 64 - 1⟩ :=
  ⟨⟨_, rfl, rfl⟩, rfl, not_agree_of_overfull (by decide) (by decide)⟩

end World
end Nyarix
