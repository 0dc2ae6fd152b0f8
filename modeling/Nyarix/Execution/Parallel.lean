import Mathlib.Logic.Function.Basic
import Nyarix.Execution.Walk
import Nyarix.Lib.Transition

/-! Parallel execution as a transition system: the branches of every running call, the
graph behind its mutex, and one semaphore for each call. A step runs one branch from one
await point to the next. -/

namespace Nyarix

abbrev TaskId := Nat
abbrev CallId := Nat

inductive BranchResult where
  | ok (packets : List Packet)
  | err (error : ExecutionError)
  | panicked (reason : String)

/-- Where a branch stands; every constructor but the last three is an await point. -/
inductive Pc where
  /-- the call itself, before it checks its entry point and makes a semaphore of so many permits -/
  | start (entry : NodeId) (packet : Packet) (permits : Nat)
  /-- a spawned branch waiting for a permit -/
  | acquire (target : NodeId) (packet : Packet)
  /-- `walk_node` waiting for the graph lock to validate and to get the sender -/
  | lock (current : NodeId) (packet : Packet)
  /-- waiting for space in the node's queue -/
  | send (current : NodeId) (packet : Packet)
  /-- the packet is queued; waiting for the graph lock again -/
  | relock (current : NodeId)
  /-- receiving from the node's queue under the graph lock -/
  | recv (current : NodeId)
  /-- in `join_next` on the spawned branches, with the results joined so far -/
  | join (set : List TaskId) (results : List Packet)
  | done (result : BranchResult)
  | joined
  | dropped

def Pc.live : Pc → Bool
  | .done _ | .joined | .dropped => false
  | _ => true

def Pc.set : Pc → List TaskId
  | .join set _ => set
  | _ => []

structure Task where
  call : CallId
  parent : Option TaskId
  permit : Bool
  aborted : Bool
  pc : Pc

structure Call where
  entry : NodeId
  packet : Packet
  maxConcurrentBranches : Nat

structure World (M : Type) where
  graph : FlowGraph M
  mutex : Option TaskId
  semaphore : CallId → Nat
  tasks : List Task

/-- What the chosen branch does. Clock readings, and the text of the `JoinError` that tells of a
branch's panic, come with the action that takes them. -/
inductive Action where
  | enter
  | acquire
  | admission (now : Instant)
  | send
  | relock
  | recv (elapsed : Duration)
  | join (child : TaskId) (joinErr : String)
  | finish
  | abort

structure Label where
  task : TaskId
  action : Action

inductive BranchStep where
  | finished (result : BranchResult)
  | goto (next : NodeId) (packet : Packet)
  | fork (targets : List NodeId) (packet : Packet)

def runBranch (current : NodeId) : WalkStep → BranchStep
  | .absorbed => .finished (.ok [])
  | .exited packet => .finished (.ok [packet])
  | .goOn packet next =>
    if parallelTargets next = [] then
      match next.head? with
      | none => .finished (.err (deadEnd current))
      | some (_, target) => .goto target packet
    else .fork (parallelTargets next) packet

def abortTasks (set : List TaskId) (tasks : List Task) : List Task :=
  tasks.mapIdx fun k t => if k ∈ set then { t with aborted := true } else t

def Task.release (t : Task) (semaphore : CallId → Nat) : CallId → Nat :=
  if t.permit then Function.update semaphore t.call (semaphore t.call + 1) else semaphore

/-- What `Semaphore::new` is asked for: clamped from below, and not from above. -/
def Call.permits (call : Call) : Nat := max call.maxConcurrentBranches 1

/-- `Semaphore::MAX_PERMITS`, that is `usize::MAX >> 3`. -/
def maxPermits : Nat := (2 ^ 64 - 1) >>> 3

def tooManyPermits : String := s!"a semaphore may not have more than MAX_PERMITS permits ({maxPermits})"

def Call.root (c : CallId) (call : Call) : Task :=
  ⟨c, none, false, false, .start call.entry call.packet call.permits⟩

section World
variable {M : Type} [Node M]

/-- The first half of `walk_node`, up to the send: what is checked under the lock, and the
packet with its hop recorded. -/
def FlowGraph.admission (g : FlowGraph M) (current : NodeId) (packet : Packet) (now : Instant) :
    Except ExecutionError Packet :=
  match g.node current with
  | none => .error (missingNode current)
  | some node =>
    match node.checkPayloadLimit packet with
    | .error e => .error e
    | .ok () => .ok (packet.recordHop current now)

theorem FlowGraph.admission_eq_ok {g : FlowGraph M} {current : NodeId} {packet admitted : Packet} {now : Instant}
    (h : g.admission current packet now = .ok admitted) : ∃ node, g.node current = some node ∧
      node.checkPayloadLimit packet = .ok () ∧ admitted = packet.recordHop current now := by
  unfold admission at h
  split at h
  · cases h
  · rename_i node hnode
    split at h
    · cases h
    · rename_i hlimit
      cases h
      exact ⟨node, hnode, hlimit, rfl⟩

theorem FlowGraph.admission_eq_error {g : FlowGraph M} {current : NodeId} {packet : Packet} {now : Instant}
    {e : ExecutionError} (h : g.admission current packet now = .error e) : g.node current = none ∨
      ∃ node, g.node current = some node ∧ node.checkPayloadLimit packet = .error e := by
  unfold admission at h
  split at h
  · exact .inl ‹_›
  · rename_i node hnode
    split at h
    · rename_i hlimit
      cases h
      exact .inr ⟨node, hnode, hlimit⟩
    · cases h

def FlowGraph.branchStep (g : FlowGraph M) (current : NodeId) :
    Unwind (Except ExecutionError (Option Packet)) → BranchStep
  | .panicked reason => .finished (.panicked reason)
  | .returned (.error e) => .finished (.err e)
  | .returned (.ok processed) => runBranch current (g.walkStep current processed)

/-- The second half of `walk_node`, under the lock: dequeue a packet, which need not be the
caller's own, and process it; `none` while the node's queue is empty. -/
def FlowGraph.receive (g : FlowGraph M) (current : NodeId) (elapsed : Duration) :
    Option (FlowGraph M × BranchStep) :=
  match g.node current with
  | none => none
  | some node =>
    match node.queue.tryRecvPrioritized with
    | none => none
    | some (packet, queue) =>
      let r := { node with queue := queue }.processTimed packet elapsed
      let g := g.modifyNode current fun _ => r.1
      some (g, g.branchStep current r.2)

namespace World

def init (g : FlowGraph M) (calls : List Call) : World M where
  graph := g
  mutex := none
  semaphore c := (calls[c]?.map Call.permits).getD 0
  tasks := calls.mapIdx Call.root

def move (w : World M) (i : TaskId) (t : Task) (pc : Pc) : World M :=
  { w with tasks := w.tasks.set i { t with pc := pc } }

def finish (w : World M) (i : TaskId) (t : Task) (result : BranchResult) : World M :=
  { w with
    semaphore := t.release w.semaphore
    tasks := w.tasks.set i { t with pc := .done result, permit := false } }

def fork (w : World M) (i : TaskId) (t : Task) (targets : List NodeId) (packet : Packet) : World M :=
  { w with
    tasks := w.tasks.set i { t with pc := .join (List.range' w.tasks.length targets.length) [] } ++
      targets.map fun target => ⟨t.call, some i, false, false, .acquire target packet⟩ }

def proceed (w : World M) (i : TaskId) (t : Task) : BranchStep → World M
  | .finished result => w.finish i t result
  | .goto next packet => w.move i t (.lock next packet)
  | .fork targets packet => w.fork i t targets packet

/-- `Semaphore::new` panics if it is asked for more permits than it can hold; the call unwinds. -/
def enter (w : World M) (i : TaskId) (t : Task) (entry : NodeId) (packet : Packet) (permits : Nat) : World M :=
  if entry ∈ w.graph.entryPoints then
    if permits ≤ maxPermits then w.move i t (.lock entry packet)
    else w.finish i t (.panicked tooManyPermits)
  else w.finish i t (.err (missingNode entry))

def acquire (w : World M) (i : TaskId) (t : Task) (target : NodeId) (packet : Packet) : World M :=
  { w with
    semaphore := Function.update w.semaphore t.call (w.semaphore t.call - 1)
    tasks := w.tasks.set i { t with pc := .lock target packet, permit := true } }

def admission (w : World M) (i : TaskId) (t : Task) (current : NodeId) (packet : Packet) (now : Instant) :
    World M :=
  match w.graph.admission current packet now with
  | .error e => w.finish i t (.err e)
  | .ok packet => w.move i t (.send current packet)

def send (w : World M) (i : TaskId) (t : Task) (current : NodeId) (packet : Packet) : Option (World M) :=
  match w.graph.node current with
  | none =>
    some (w.finish i t (.err (.graph (.buildFailed s!"node {current} input queue closed"))))
  | some node =>
    (node.queue.trySend packet).map fun queue =>
      { w with graph := w.graph.modifyNode current ({ · with queue := queue }) }.move i t (.relock current)

def relock (w : World M) (i : TaskId) (t : Task) (current : NodeId) : World M :=
  match w.graph.node current with
  | none => w.finish i t (.err (missingNode current))
  | some _ => { w with mutex := some i }.move i t (.recv current)

def recv (w : World M) (i : TaskId) (t : Task) (current : NodeId) (elapsed : Duration) :
    Option (World M) :=
  (w.graph.receive current elapsed).map fun (graph, step) =>
    { w with graph := graph, mutex := none }.proceed i t step

/-- Join one finished branch; its error ends this branch and aborts the rest of the set. -/
def join (w : World M) (i : TaskId) (t : Task) (set : List TaskId) (results : List Packet)
    (c : TaskId) (child : Task) (joinErr : String) : BranchResult → World M
  | .ok packets =>
    { w with tasks := w.tasks.set c { child with pc := .joined } }.move i t
      (.join (set.erase c) (results ++ packets))
  | .err e => abortRest (.err e)
  | .panicked _ =>
    abortRest (.err (.graph (.buildFailed s!"parallel branch task panicked: {joinErr}")))
where
  abortRest (result : BranchResult) : World M :=
    let w := { w with tasks := w.tasks.set c { child with pc := .joined } }.finish i t result
    { w with tasks := abortTasks (set.erase c) w.tasks }

def drop (w : World M) (i : TaskId) (t : Task) : World M :=
  { w with
    mutex := if w.mutex = some i then none else w.mutex
    semaphore := t.release w.semaphore
    tasks := abortTasks t.pc.set (w.tasks.set i { t with pc := .dropped, permit := false }) }

def act (w : World M) (i : TaskId) (t : Task) : Action → Pc → Option (World M)
  | .enter, .start entry packet permits =>
    if w.mutex = none then some (w.enter i t entry packet permits) else none
  | .acquire, .acquire target packet =>
    if 0 < w.semaphore t.call then some (w.acquire i t target packet) else none
  | .admission now, .lock current packet =>
    if w.mutex = none then some (w.admission i t current packet now) else none
  | .send, .send current packet => w.send i t current packet
  | .relock, .relock current => if w.mutex = none then some (w.relock i t current) else none
  | .recv elapsed, .recv current => w.recv i t current elapsed
  | .join c joinErr, .join set results =>
    match w.tasks[c]? with
    | some child =>
      match child.pc with
      | .done result => if c ∈ set then some (w.join i t set results c child joinErr result) else none
      | _ => none
    | none => none
  | .finish, .join [] results => some (w.finish i t (.ok results))
  | .abort, pc => if t.aborted ∧ pc.live then some (w.drop i t) else none
  | _, _ => none

def step (w : World M) (l : Label) : Option (World M) :=
  match w.tasks[l.task]? with
  | none => none
  | some t => w.act l.task t l.action t.pc

def returned (w : World M) (c : CallId) : Option BranchResult :=
  match w.tasks[c]? with
  | some ⟨_, none, _, _, .done result⟩ => some result
  | _ => none

/-- The call has come to its end, and not by unwinding. -/
def Returns (w : World M) (c : CallId) : Prop :=
  ∃ result, w.returned c = some result ∧ ∀ reason, result ≠ .panicked reason

inductive Step (w : World M) (i : TaskId) (t : Task) : Action → World M → Prop
  | enter {entry packet permits} (hpc : t.pc = .start entry packet permits) (hm : w.mutex = none) :
    Step w i t .enter (w.enter i t entry packet permits)
  | acquire {target packet} (hpc : t.pc = .acquire target packet) (hs : 0 < w.semaphore t.call) :
    Step w i t .acquire (w.acquire i t target packet)
  | admission {current packet now} (hpc : t.pc = .lock current packet) (hm : w.mutex = none) :
    Step w i t (.admission now) (w.admission i t current packet now)
  | send {current packet w'} (hpc : t.pc = .send current packet)
      (h : w.send i t current packet = some w') : Step w i t .send w'
  | relock {current} (hpc : t.pc = .relock current) (hm : w.mutex = none) :
    Step w i t .relock (w.relock i t current)
  | recv {current elapsed w'} (hpc : t.pc = .recv current)
      (h : w.recv i t current elapsed = some w') : Step w i t (.recv elapsed) w'
  | join {set results c child joinErr result} (hpc : t.pc = .join set results) (hc : w.tasks[c]? = some child)
      (hd : child.pc = .done result) (hmem : c ∈ set) :
    Step w i t (.join c joinErr) (w.join i t set results c child joinErr result)
  | finish {results} (hpc : t.pc = .join [] results) : Step w i t .finish (w.finish i t (.ok results))
  | abort (ha : t.aborted = true) (hl : t.pc.live = true) : Step w i t .abort (w.drop i t)

theorem act_cases {w w' : World M} {i : TaskId} {t : Task} {a : Action}
    (h : w.act i t a t.pc = some w') : Step w i t a w' := by
  generalize hpc : t.pc = pc at h
  unfold act at h
  split at h
  · obtain ⟨hm, ⟨⟩⟩ := Option.ite_none_right_eq_some.mp h
    exact .enter hpc hm
  · obtain ⟨hs, ⟨⟩⟩ := Option.ite_none_right_eq_some.mp h
    exact .acquire hpc hs
  · obtain ⟨hm, ⟨⟩⟩ := Option.ite_none_right_eq_some.mp h
    exact .admission hpc hm
  · exact .send hpc h
  · obtain ⟨hm, ⟨⟩⟩ := Option.ite_none_right_eq_some.mp h
    exact .relock hpc hm
  · exact .recv hpc h
  · split at h
    · split at h
      · obtain ⟨hmem, ⟨⟩⟩ := Option.ite_none_right_eq_some.mp h
        exact .join hpc ‹_› ‹_› hmem
      · cases h
    · cases h
  · cases h
    exact .finish hpc
  · obtain ⟨⟨ha, hl⟩, ⟨⟩⟩ := Option.ite_none_right_eq_some.mp h
    exact .abort ha (hpc ▸ hl)
  · cases h

theorem act_of_step {w w' : World M} {i : TaskId} {t : Task} {a : Action} (h : Step w i t a w') :
    w.act i t a t.pc = some w' := by
  cases h with
  | enter hpc hm => simp only [act, hpc, if_pos hm]
  | acquire hpc hs => simp only [act, hpc, if_pos hs]
  | admission hpc hm => simp only [act, hpc, if_pos hm]
  | send hpc h => simpa only [act, hpc] using h
  | relock hpc hm => simp only [act, hpc, if_pos hm]
  | recv hpc h => simpa only [act, hpc] using h
  | join hpc hc hd hmem => simp only [act, hpc, hc, hd, if_pos hmem]
  | finish hpc => simp only [act, hpc]
  | abort ha hl => simp only [act, ha, hl, and_self, if_true]

theorem step_iff {w w' : World M} {l : Label} :
    w.step l = some w' ↔ ∃ t, w.tasks[l.task]? = some t ∧ Step w l.task t l.action w' := by
  cases ht : w.tasks[l.task]? with
  | none => simp [step, ht]
  | some t =>
    simp only [step, ht, Option.some.injEq, exists_eq_left']
    exact ⟨act_cases, act_of_step⟩

/-- Why a branch ends of its own, and with what: its call does not begin at an entry point or gets no
semaphore, its packet is not admitted, or its node has been taken out of the graph. -/
inductive Refused (w : World M) (t : Task) : Action → BranchResult → Prop
  | entry {entry packet permits} (hpc : t.pc = .start entry packet permits)
      (hentry : entry ∉ w.graph.entryPoints) : Refused w t .enter (.err (missingNode entry))
  | semaphore {entry packet permits} (hpc : t.pc = .start entry packet permits)
      (hentry : entry ∈ w.graph.entryPoints) (hpermits : maxPermits < permits) :
    Refused w t .enter (.panicked tooManyPermits)
  | admission {current packet now e} (hpc : t.pc = .lock current packet)
      (h : w.graph.admission current packet now = .error e) : Refused w t (.admission now) (.err e)
  | closed {current packet} (hpc : t.pc = .send current packet) (hnode : w.graph.node current = none) :
    Refused w t .send (.err (.graph (.buildFailed s!"node {current} input queue closed")))
  | missing {current} (hpc : t.pc = .relock current) (hnode : w.graph.node current = none) :
    Refused w t .relock (.err (missingNode current))

/-- What a step does to the world, outcome by outcome of the code. -/
inductive Effect (w : World M) (i : TaskId) (t : Task) : Action → World M → Prop
  | entered {entry packet permits} (hpc : t.pc = .start entry packet permits) (hm : w.mutex = none)
      (hentry : entry ∈ w.graph.entryPoints) (hpermits : permits ≤ maxPermits) :
    Effect w i t .enter (w.move i t (.lock entry packet))
  | acquired {target packet} (hpc : t.pc = .acquire target packet) (hsem : 0 < w.semaphore t.call) :
    Effect w i t .acquire (w.acquire i t target packet)
  | admitted {current packet now admitted} (hpc : t.pc = .lock current packet) (hm : w.mutex = none)
      (h : w.graph.admission current packet now = .ok admitted) :
    Effect w i t (.admission now) (w.move i t (.send current admitted))
  | sent {current packet node queue} (hpc : t.pc = .send current packet)
      (hnode : w.graph.node current = some node) (hq : node.queue.trySend packet = some queue) :
    Effect w i t .send ({ w with graph := w.graph.modifyNode current ({ · with queue := queue }) }.move i t
      (.relock current))
  | relocked {current node} (hpc : t.pc = .relock current) (hm : w.mutex = none)
      (hnode : w.graph.node current = some node) :
    Effect w i t .relock ({ w with mutex := some i }.move i t (.recv current))
  | received {current elapsed graph step} (hpc : t.pc = .recv current)
      (hr : w.graph.receive current elapsed = some (graph, step)) :
    Effect w i t (.recv elapsed) ({ w with graph := graph, mutex := none }.proceed i t step)
  | refused {a result} (h : w.Refused t a result) : Effect w i t a (w.finish i t result)
  | joined {set results c child joinErr packets} (hpc : t.pc = .join set results) (hc : w.tasks[c]? = some child)
      (hd : child.pc = .done (.ok packets)) (hmem : c ∈ set) :
    Effect w i t (.join c joinErr) (w.join i t set results c child joinErr (.ok packets))
  | failed {set results c child joinErr result e} (hpc : t.pc = .join set results)
      (hc : w.tasks[c]? = some child) (hd : child.pc = .done result) (hf : ∀ packets, result ≠ .ok packets)
      (hmem : c ∈ set) : Effect w i t (.join c joinErr) (join.abortRest w i t set c child (.err e))
  | finished {results} (hpc : t.pc = .join [] results) : Effect w i t .finish (w.finish i t (.ok results))
  | dropped (ha : t.aborted = true) (hl : t.pc.live = true) : Effect w i t .abort (w.drop i t)

theorem step_cases {w w' : World M} {i : TaskId} {t : Task} {a : Action} (h : Step w i t a w') :
    Effect w i t a w' := by
  cases h with
  | enter hpc hm =>
    unfold enter
    split_ifs with hentry hpermits
    · exact .entered hpc hm hentry hpermits
    · exact .refused (.semaphore hpc hentry (Nat.lt_of_not_le hpermits))
    · exact .refused (.entry hpc hentry)
  | acquire hpc hs => exact .acquired hpc hs
  | admission hpc hm =>
    unfold admission
    split
    · exact .refused (.admission hpc ‹_›)
    · exact .admitted hpc hm ‹_›
  | send hpc h =>
    unfold send at h
    split at h
    · obtain rfl := Option.some.inj h
      exact .refused (.closed hpc ‹_›)
    · obtain ⟨queue, hq, rfl⟩ := Option.map_eq_some_iff.mp h
      exact .sent hpc ‹_› hq
  | relock hpc hm =>
    unfold relock
    split
    · exact .refused (.missing hpc ‹_›)
    · exact .relocked hpc hm ‹_›
  | recv hpc h =>
    obtain ⟨⟨graph, step⟩, hr, rfl⟩ := Option.map_eq_some_iff.mp h
    exact .received hpc hr
  | @join set results c child joinErr result hpc hc hd hmem =>
    cases result with
    | ok packets => exact .joined hpc hc hd hmem
    | err | panicked => exact .failed hpc hc hd nofun hmem
  | finish hpc => exact .finished hpc
  | abort ha hl => exact .dropped ha hl

theorem Refused.ne_recv {w : World M} {t : Task} {a : Action} {result : BranchResult} (h : w.Refused t a result)
    (n : NodeId) : t.pc ≠ .recv n := by
  cases h with
  | entry hpc | semaphore hpc | admission hpc | closed hpc | missing hpc => simp [hpc]

omit [Node M] in
@[simp] theorem proceed_graph (w : World M) (i : TaskId) (t : Task) (step : BranchStep) :
    (w.proceed i t step).graph = w.graph := by
  cases step <;> rfl

omit [Node M] in
@[simp] theorem proceed_mutex (w : World M) (i : TaskId) (t : Task) (step : BranchStep) :
    (w.proceed i t step).mutex = w.mutex := by
  cases step <;> rfl

end World
end World
end Nyarix
