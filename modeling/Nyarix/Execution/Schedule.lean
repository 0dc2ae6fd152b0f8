import Nyarix.Execution.InFlight
import Nyarix.Execution.Isolation
import Nyarix.Execution.Reference

/-! Schedule independence of concurrent `execute_parallel` calls over stateless modules. Every
packet on its way is a token; each step replaces tokens as the fork-join reference allows, so
whatever the schedule, the calls together return what their references yield. -/

namespace Nyarix
open Transition ForkJoin

def Pc.tokens : Pc → Multiset Token
  | .start n packet _ | .acquire n packet | .lock n packet => {.todo n packet}
  | .send n packet => {.queued n packet}
  | .join _ results => (results.map Token.out : List Token)
  | .done (.ok packets) => (packets.map Token.out : List Token)
  | .done _ | .relock _ | .recv _ | .joined | .dropped => 0

section Graph
variable {M : Type}

def GraphNode.withQueue (node : GraphNode M) (queue : NodeQueue) : GraphNode M := { node with queue := queue }

def queueTokens (n : NodeId) (node : GraphNode M) : Multiset Token :=
  (node.queue.packets.map (Token.queued n) : List Token)

def FlowGraph.tokens (g : FlowGraph M) : Multiset Token := HashMap.total queueTokens g.nodes

structure FlowGraph.Shares (g g' : FlowGraph M) : Prop where
  edges : g'.edges = g.edges
  entryPoints : g'.entryPoints = g.entryPoints
  exitPoints : g'.exitPoints = g.exitPoints
  nodes : ∃ queues : NodeId → NodeQueue, ∀ n, g'.node n = (g.node n).map (·.withQueue (queues n))

def FlowGraph.Untimed [Node M] (g : FlowGraph M) : Prop :=
  ∀ n node, g.node n = some node → node.metadata.resourceLimits.maxProcessingTime = none

theorem FlowGraph.untimed_of_entries [Node M] {g : FlowGraph M}
    (h : ∀ e ∈ g.nodes.entries, e.2.metadata.resourceLimits.maxProcessingTime = none) : g.Untimed :=
  fun n node hn => h ⟨n, node⟩ (AList.mem_lookup_iff.mp hn)

variable {g g' : FlowGraph M} {n : NodeId} {node : GraphNode M}

theorem FlowGraph.QueuesEmpty.tokens (h : g.QueuesEmpty) : g.tokens = 0 := by
  apply HashMap.total_eq_zero
  intro n node hn
  rw [queueTokens, h n node hn]
  rfl

theorem FlowGraph.shares_refl (g : FlowGraph M) : g.Shares g := by
  refine ⟨rfl, rfl, rfl, fun n => ((g.node n).map (·.queue)).getD (nodeQueue 1 Nat.one_pos), fun n => ?_⟩
  cases hn : g.node n <;> simp [hn, GraphNode.withQueue]

theorem FlowGraph.Shares.withQueue (h : g.Shares g') (hn : g'.node n = some node) :
    ∃ node₀, g.node n = some node₀ ∧ node = node₀.withQueue node.queue := by
  obtain ⟨queues, hq⟩ := h.nodes
  rw [hq, Option.map_eq_some_iff] at hn
  obtain ⟨node₀, hnode, rfl⟩ := hn
  exact ⟨node₀, hnode, rfl⟩

theorem FlowGraph.Shares.modify (h : g.Shares g') (hn : g'.node n = some node) {f : GraphNode M → GraphNode M}
    {queue : NodeQueue} (hf : f node = node.withQueue queue) : g.Shares (g'.modifyNode n f) := by
  obtain ⟨queues, hq⟩ := h.nodes
  refine ⟨h.edges, h.entryPoints, h.exitPoints, Function.update queues n queue, fun m => ?_⟩
  rw [FlowGraph.node_modifyNode]
  split_ifs with hm
  · subst hm
    rw [hn, Option.map_some, hf, Function.update_self]
    obtain ⟨node₀, hnode, hq⟩ := h.withQueue hn
    rw [hnode, hq]
    rfl
  · rw [hq, Function.update_of_ne hm]

variable [Node M] {packet : Packet}

theorem FlowGraph.Shares.admission (h : g.Shares g') (now : Instant) : g'.admission n packet now = g.admission n packet now := by
  obtain ⟨queues, hq⟩ := h.nodes
  unfold FlowGraph.admission
  rw [hq]
  cases g.node n <;> rfl

theorem process_fst (hst : Stateless M) (node : GraphNode M) (packet : Packet) : (node.process packet).1 = node := by
  simp only [GraphNode.process, GraphNode.call, ArcNode.call]
  split_ifs
  · rw [hst]
  · rfl

def withoutBudget : Unwind (Except ModuleError (Option Packet)) → Unwind (Except ExecutionError (Option Packet))
  | .panicked reason => .panicked reason
  | .returned (.error e) => .returned (.error (.module e))
  | .returned (.ok processed) => .returned (.ok processed)

theorem processTimed_eq (hst : Stateless M) (hlim : node.metadata.resourceLimits.maxProcessingTime = none)
    (elapsed : Duration) : node.processTimed packet elapsed = (node, withoutBudget (node.process packet).2) := by
  have hfst := process_fst hst node packet
  unfold GraphNode.processTimed
  cases hp : node.process packet with
  | mk node' r =>
    rw [hp] at hfst
    obtain rfl : node' = node := hfst
    cases r with
    | panicked reason => rfl
    | returned outcome =>
      simp only [GraphNode.checkProcessingTime, hlim]
      cases outcome <;> rfl

omit [Node M] in
theorem FlowGraph.Shares.branchStep (h : g.Shares g') (r : Unwind (Except ExecutionError (Option Packet))) :
    g'.branchStep n r = g.branchStep n r := by
  cases r with
  | panicked => rfl
  | returned outcome =>
    cases outcome with
    | error => rfl
    | ok processed =>
      simp only [FlowGraph.branchStep]
      congr 1
      cases processed with
      | none => rfl
      | some processed => simp only [FlowGraph.walkStep, FlowGraph.edgesFrom, h.edges, h.exitPoints]

theorem refines_serve (hnode : g.node n = some node) (hb : ¬ RefServeFails g n packet) :
    (g.branchStep n (withoutBudget (node.process packet).2)).Succeeds ∧
      Refines g {.queued n packet} (g.branchStep n (withoutBudget (node.process packet).2)).tokens := by
  cases hp : (node.process packet).2 with
  | panicked reason => exact absurd (.panicked hnode hp) hb
  | returned outcome =>
    cases outcome with
    | error e => exact absurd (.failed hnode hp) hb
    | ok processed => exact refines_runBranch hnode hp hb

omit [Node M] in
theorem tokens_send (hnode : g.node n = some node) {queue : NodeQueue} (hq : node.queue.trySend packet = some queue) :
    (g.modifyNode n ({ · with queue := queue })).tokens = g.tokens + {.queued n packet} := by
  have htotal := HashMap.total_modify queueTokens (m := g.nodes) (fun v => { v with queue := queue }) hnode
  have hqueue : queueTokens n { node with queue := queue } = queueTokens n node + {.queued n packet} := by
    rw [add_comm, Multiset.singleton_add, queueTokens, queueTokens, Multiset.cons_coe]
    exact Multiset.coe_eq_coe.mpr ((NodeQueue.trySend_eq_some hq).1.map _)
  rw [hqueue, add_comm (queueTokens n node), ← add_assoc] at htotal
  exact add_right_cancel htotal

omit [Node M] in
theorem tokens_receive (hnode : g.node n = some node) {queue : NodeQueue}
    (hq : node.queue.tryRecvPrioritized = some (packet, queue)) {node' : GraphNode M} (hn' : node'.queue = queue) :
    (g.modifyNode n fun _ => node').tokens + {.queued n packet} = g.tokens := by
  have htotal := HashMap.total_modify queueTokens (m := g.nodes) (fun _ => node') hnode
  have hqueue : queueTokens n node = {.queued n packet} + queueTokens n node' := by
    rw [queueTokens, queueTokens, NodeQueue.tryRecvPrioritized_eq_some hq, hn']
    rfl
  rw [hqueue, ← add_assoc] at htotal
  exact add_right_cancel htotal

end Graph

/-- No branch has failed, and every call that has not begun has an entry point and will get a semaphore. -/
def Smooth {M : Type} (g : FlowGraph M) (_ : CallId) : Pc → Prop
  | .start entry _ permits => entry ∈ g.entryPoints ∧ permits ≤ maxPermits
  | .done result => result.failed = false
  | _ => True

namespace World
variable {M : Type}

def tokens (w : World M) : Multiset Token := w.total Pc.tokens + w.graph.tokens

variable [Node M] {g : FlowGraph M} {calls : List Call} {w w' : World M} {i : TaskId} {t : Task}

structure Advances (g : FlowGraph M) (w w' : World M) : Prop where
  shares : g.Shares w'.graph
  smooth : w'.All (Smooth g)
  refines : Refines g w.tokens w'.tokens

omit [Node M] in
theorem tokens_task (ht : w.tasks[i]? = some t) : ∃ rest, w.tokens = t.pc.tokens + rest := by
  obtain ⟨rest, hr⟩ := Tally.exists_sumOver_eq (Pc.tokens ∘ Task.pc) (List.mem_of_getElem? ht)
  exact ⟨rest + w.graph.tokens, by rw [tokens, total, hr, add_assoc]; rfl⟩

omit [Node M] in
theorem advances_proceed (hw : w.All (Smooth g)) (hg : g.Shares w.graph) (ht : w.tasks[i]? = some t)
    (hpc : t.pc.tokens = 0) {step : BranchStep} (hs : step.Succeeds) : g.Shares (w.proceed i t step).graph ∧
      (w.proceed i t step).All (Smooth g) ∧ (w.proceed i t step).tokens = w.tokens + step.tokens := by
  have htokens : ∀ w' : World M, w'.graph = w.graph →
      w'.total Pc.tokens + t.pc.tokens = w.total Pc.tokens + step.tokens → w'.tokens = w.tokens + step.tokens := by
    intro w' hgraph htotal
    rw [hpc, add_zero] at htotal
    rw [tokens, tokens, htotal, hgraph]
    exact add_right_comm _ _ _
  cases step with
  | finished result =>
    cases result with
    | ok packets => exact ⟨hg, all_finish hw rfl, htokens _ rfl (total_finish Pc.tokens w ht (.ok packets))⟩
    | err | panicked => exact hs.elim
  | goto next packet => exact ⟨hg, all_move hw trivial, htokens _ rfl (total_move Pc.tokens w ht (.lock next packet))⟩
  | fork targets packet =>
    refine ⟨hg, all_fork hw trivial fun _ _ => trivial, htokens _ rfl ?_⟩
    have := total_fork Pc.tokens w ht targets packet
    rwa [show Pc.tokens (.join _ []) = 0 from rfl, add_zero] at this

theorem advances_send (hg : g.Shares w.graph) (hw : w.All (Smooth g)) (ht : w.tasks[i]? = some t)
    {current : NodeId} {packet : Packet} (hpc : t.pc = .send current packet) {node : GraphNode M}
    (hnode : w.graph.node current = some node) {queue : NodeQueue} (hq : node.queue.trySend packet = some queue) :
    Advances g w ({ w with graph := w.graph.modifyNode current ({ · with queue := queue }) }.move i t
      (.relock current)) := by
  refine ⟨hg.modify hnode rfl, all_move (w := { w with graph := _ }) hw trivial, ?_⟩
  have htotal := total_move Pc.tokens
    { w with graph := w.graph.modifyNode current ({ · with queue := queue }) } ht (.relock current)
  rw [hpc] at htotal
  -- the packet's token moves from the branch into the queue
  have heq : w.tokens = (({ w with graph := w.graph.modifyNode current ({ · with queue := queue }) } : World M).move
      i t (.relock current)).tokens := by
    rw [tokens, tokens]
    change _ = _ + (w.graph.modifyNode current ({ · with queue := queue })).tokens
    rw [tokens_send hnode hq, ← add_assoc, add_right_comm]
    exact congrArg (· + _) (htotal.trans (add_zero _)).symm
  rw [← heq]
  exact .refl _

theorem advances_recv (hst : Stateless M) (hut : g.Untimed) (hg : g.Shares w.graph) (hw : w.All (Smooth g))
    (hgood : ∀ token ∈ w.tokens, ¬ token.fails g) (ht : w.tasks[i]? = some t) {current : NodeId}
    (hpc : t.pc = .recv current) {elapsed : Duration} {graph : FlowGraph M} {step : BranchStep}
    (hr : w.graph.receive current elapsed = some (graph, step)) :
    Advances g w ({ w with graph := graph, mutex := none }.proceed i t step) := by
  obtain ⟨node, packet, queue, hnode, hq, rfl, rfl⟩ := receive_eq_some hr
  obtain ⟨node₀, hnode₀, hnode_eq⟩ := hg.withQueue hnode
  have hlim : ({ node with queue := queue } : GraphNode M).metadata.resourceLimits.maxProcessingTime = none := by
    rw [hnode_eq]
    exact hut current node₀ hnode₀
  have hprocess : (({ node with queue := queue } : GraphNode M).process packet).2 = (node₀.process packet).2 := by
    rw [hnode_eq]
    rfl
  rw [processTimed_eq hst hlim, hprocess]
  have hshares : g.Shares (w.graph.modifyNode current fun _ => { node with queue := queue }) :=
    hg.modify hnode rfl
  have htokens : (w.graph.modifyNode current fun _ => { node with queue := queue }).tokens + {.queued current packet} =
      w.graph.tokens :=
    tokens_receive hnode hq rfl
  have hmem : Token.queued current packet ∈ w.tokens := by
    rw [tokens, ← htokens]
    simp
  obtain ⟨hsucc, href⟩ := refines_serve hnode₀ (hgood _ hmem)
  rw [hshares.branchStep]
  let v : World M :=
    { w with graph := w.graph.modifyNode current fun _ => { node with queue := queue }, mutex := none }
  -- the queued token becomes the tokens of what the branch goes on with
  obtain ⟨hs', ha', ht'⟩ := advances_proceed (w := v) hw hshares ht (by rw [hpc]; rfl) hsucc
  refine ⟨hs', ha', ?_⟩
  have hv : v.tokens + {.queued current packet} = w.tokens := by
    rw [tokens, tokens, add_assoc]
    exact congrArg _ htokens
  rw [ht', ← hv, add_comm, add_comm v.tokens]
  exact href.add_right _

theorem not_refused (s : w.Sound g calls) (hg : g.Shares w.graph) (hw : w.All (Smooth g))
    (hgood : ∀ token ∈ w.tokens, ¬ token.fails g) (ht : w.tasks[i]? = some t) {a : Action} {result : BranchResult} :
    ¬ w.Refused t a result := by
  intro h
  have hsmooth := hw t (List.mem_of_getElem? ht)
  have hplaced : ∀ {n}, t.pc.visits = some n → w.graph.node n ≠ none := by
    intro n hn hnone
    obtain ⟨node, hnode⟩ := s.node ht hn
    cases hnone.symm.trans hnode
  cases h with
  | entry hpc hentry =>
    rw [hpc] at hsmooth
    exact hentry (hg.entryPoints ▸ hsmooth.1)
  | semaphore hpc _ hpermits =>
    rw [hpc] at hsmooth
    exact absurd hsmooth.2 (Nat.not_le.mpr hpermits)
  | @admission current packet now e hpc hadmission =>
    have hmem : Token.todo current packet ∈ w.tokens := by
      obtain ⟨rest, hr⟩ := tokens_task ht
      rw [hr, hpc]
      simp [Pc.tokens]
    rw [hg.admission] at hadmission
    exact hgood _ hmem (fails_of_admission hadmission)
  | closed hpc hnode | missing hpc hnode => exact hplaced (by rw [hpc]; rfl) hnode

/-- While nothing goes wrong, a step replaces tokens as the reference allows. -/
theorem advances_step (hst : Stateless M) (hut : g.Untimed) (s : w.Sound g calls) (hg : g.Shares w.graph)
    (hw : w.All (Smooth g)) (hc : w.pool.Calm) (hgood : ∀ token ∈ w.tokens, ¬ token.fails g)
    (ht : w.tasks[i]? = some t) {a : Action} (hs : Step w i t a w') : Advances g w w' := by
  -- a step that does not change the graph
  have hsame : ∀ w' : World M, w'.graph = w.graph → w'.All (Smooth g) → ∀ new,
      w'.total Pc.tokens + t.pc.tokens = w.total Pc.tokens + new → Refines g t.pc.tokens new →
      Advances g w w' := by
    intro w' hgraph ha new htotal href
    have hbalance : w'.tokens + t.pc.tokens = w.tokens + new := by
      rw [tokens, tokens, hgraph, add_right_comm, htotal]
      exact add_right_comm _ _ _
    exact ⟨hgraph ▸ hg, ha, .of_balance hbalance (tokens_task ht) href⟩
  cases step_cases hs with
  | entered hpc =>
    refine hsame _ rfl (all_move hw trivial) _ (total_move Pc.tokens w ht _) ?_
    rw [hpc]
    exact .refl _
  | @acquired target packet hpc =>
    refine hsame _ rfl (all_acquire hw trivial) _ (total_acquire Pc.tokens w ht target packet) ?_
    rw [hpc]
    exact .refl _
  | admitted hpc hm hadmission =>
    rw [hg.admission] at hadmission
    refine hsame _ rfl (all_move hw trivial) _ (total_move Pc.tokens w ht _) ?_
    rw [hpc]
    exact refines_admission hadmission
  | sent hpc hnode hq => exact advances_send hg hw ht hpc hnode hq
  | relocked hpc =>
    refine hsame _ rfl (all_move (w := { w with mutex := _ }) hw trivial) _
      (total_move Pc.tokens { w with mutex := _ } ht _) ?_
    rw [hpc]
    exact .refl _
  | received hpc hr => exact advances_recv hst hut hg hw hgood ht hpc hr
  | refused hr => exact absurd hr (not_refused s hg hw hgood ht)
  | @joined set results c child joinErr packets hpc hc' hd hmem =>
    -- the results of the joined branch move to the branch that joins it
    refine ⟨hg, all_join_ok hw trivial trivial, ?_⟩
    have htotal := total_join_ok Pc.tokens w ht hc' (child_ne s.pool ht hpc hmem) set results packets joinErr
    have heq : t.pc.tokens + child.pc.tokens =
        Pc.tokens (.join (set.erase c) (results ++ packets)) + Pc.tokens .joined := by
      rw [hpc, hd]
      simp only [Pc.tokens, List.map_append, add_zero, Multiset.coe_add]
    rw [heq] at htotal
    rw [tokens, tokens, add_right_cancel htotal]
    exact .refl _
  | failed hpc hc' hd hf =>
    have hchild := hw _ (List.mem_of_getElem? hc')
    rw [hd] at hchild
    have hfailed := BranchResult.failed_of_ne_ok hf
    rw [show BranchResult.failed _ = false from hchild] at hfailed
    cases hfailed
  | finished hpc =>
    refine hsame _ rfl (all_finish hw rfl) _ (total_finish Pc.tokens w ht _) ?_
    rw [hpc]
    exact .refl _
  | dropped ha hl =>
    have := (hc i t.job (pool_job ht)).1
    simp [Task.job, ha] at this

def given (calls : List Call) : Multiset Token := Tally.sumOver (fun call => {.todo call.entry call.packet}) calls

/-- What holds in every run in which no call can end in an error. -/
structure Steady (g : FlowGraph M) (calls : List Call) (w : World M) : Prop where
  sound : w.Sound g calls
  calm : w.pool.Calm
  matched : w.Matched
  shares : g.Shares w.graph
  smooth : w.All (Smooth g)
  refines : Refines g (given calls) w.tokens

omit [Node M] in
theorem calm_smooth (hw : w.All (Smooth g)) {j : Job} {k : Nat} (hk : w.pool.jobs[k]? = some j) :
    j.phase ≠ .finished true := by
  obtain ⟨u, hu, rfl⟩ := pool_job_iff.mp hk
  have := hw u (List.mem_of_getElem? hu)
  intro hphase
  cases hpc : u.pc with
  | done result =>
    rw [hpc] at this
    rw [Task.job, hpc] at hphase
    simp [Pc.phase, show result.failed = false from this] at hphase
  | _ => simp [Task.job, hpc, Pc.phase] at hphase

theorem Steady.step (hst : Stateless M) (hut : g.Untimed) (hgood : ∀ token ∈ given calls, ¬ token.fails g)
    (s : w.Steady g calls) {l : Label} (h : w.step l = some w') : w'.Steady g calls := by
  obtain ⟨t, ht, hs⟩ := step_iff.mp h
  have hadv := advances_step hst hut s.sound s.shares s.smooth s.calm (s.refines.2 hgood) ht hs
  obtain ⟨m, hm, -⟩ := step_pool ht hs
  -- no branch is aborted, so none leaves its packet in a queue
  have hleaves : ∀ n, t.leaves n l.action = 0 := by
    intro n
    unfold Task.leaves
    split
    · rename_i ha
      rw [ha] at hs
      cases hs with
      | abort haborted hl =>
        have := (s.calm l.task t.job (pool_job ht)).1
        simp [Task.job, haborted] at this
    · rfl
  exact {
    sound := s.sound.step ht hs
    calm := s.sound.pool.calm_step (pool_job ht) hm s.calm fun k jk hk => calm_smooth hadv.smooth hk
    matched := matched_step s.sound s.matched ht hs hleaves
    shares := hadv.shares
    smooth := hadv.smooth
    refines := s.refines.trans hadv.refines }

omit [Node M] in
theorem tokens_init (hq : g.QueuesEmpty) : (init g calls).tokens = given calls := by
  have htasks : (init g calls).total Pc.tokens = given calls := by
    unfold total given Tally.sumOver
    congr 1
    refine List.ext_getElem? fun k => ?_
    simp only [init, List.getElem?_map, List.getElem?_mapIdx, Option.map_map]
    rfl
  rw [tokens, htasks]
  exact (congrArg _ hq.tokens).trans (add_zero _)

theorem steady_init (hq : g.QueuesEmpty) (hcalls : ∀ call ∈ calls, ¬ call.Fails g)
    (hpermits : ∀ call ∈ calls, call.permits ≤ maxPermits) : (init g calls).Steady g calls where
  sound := sound_init g calls
  calm := by
    rw [pool_init]
    exact Pool.calm_init _ _
  matched := matched_init hq
  shares := g.shares_refl
  smooth := by
    intro t ht
    obtain ⟨k, hk⟩ := List.getElem?_of_mem ht
    simp only [init, List.getElem?_mapIdx, Option.map_eq_some_iff] at hk
    obtain ⟨call, hcall, rfl⟩ := hk
    have hmem := List.mem_of_getElem? hcall
    exact ⟨not_not.mp fun hentry => hcalls call hmem (.inl hentry), hpermits call hmem⟩
  refines := by
    rw [tokens_init hq]
    exact .refl _

theorem given_good (hcalls : ∀ call ∈ calls, ¬ call.Fails g) : ∀ token ∈ given calls, ¬ token.fails g := by
  intro token ht
  induction calls with
  | nil => cases ht
  | cons call calls ih =>
    rcases Multiset.mem_add.mp ht with ht | ht
    · rw [Multiset.mem_singleton.mp ht]
      exact fun hf => hcalls call List.mem_cons_self (.inr hf)
    · exact ih (fun c hc => hcalls c (List.mem_cons_of_mem _ hc)) ht

def returnedPackets (w : World M) (c : CallId) : List Packet :=
  match w.returned c with
  | some (.ok packets) => packets
  | _ => []

theorem Steady.returned_ok (s : w.Steady g calls) {c : CallId} (h : w.returned c ≠ none) :
    w.returned c = some (.ok (w.returnedPackets c)) := by
  obtain ⟨result, hr⟩ := Option.ne_none_iff_exists'.mp h
  obtain ⟨t, ht, -, hpc⟩ := returned_eq_some hr
  have := s.smooth t (List.mem_of_getElem? ht)
  rw [hpc] at this
  cases result with
  | ok packets => rw [returnedPackets, hr]
  | err | panicked => cases this

theorem Steady.settled (s : w.Steady g calls) (hret : ∀ c < calls.length, w.returned c ≠ none)
    (ht : w.tasks[i]? = some t) : (i < calls.length ∧ t.pc = .done (.ok (w.returnedPackets i))) ∨
      calls.length ≤ i ∧ t.pc = .joined := by
  have hroot : ∀ k u, w.tasks[k]? = some u → u.parent = none → k < calls.length := fun k u hu hp =>
    (s.sound.roots k).mp ⟨u.job, pool_job hu, hp⟩
  have hdone : ∀ k < calls.length, ∃ u, w.tasks[k]? = some u ∧ u.parent = none ∧
      u.pc = .done (.ok (w.returnedPackets k)) := fun k hk => returned_eq_some (s.returned_ok (hret k hk))
  by_cases hi : i < calls.length
  · obtain ⟨u, hu, -, hpc⟩ := hdone i hi
    obtain rfl : t = u := Option.some.inj (ht.symm.trans hu)
    exact .inl ⟨hi, hpc⟩
  · -- a branch that is not a call has finished only if its parent has joined it
    refine .inr ⟨Nat.le_of_not_lt hi, ?_⟩
    have hjoined := s.sound.pool.all_joined s.calm (fun k j hj hp => ?_) (pool_job ht) fun hp => hi (hroot i t ht hp)
    · cases hpc : t.pc <;> simp_all [Task.job, Pc.phase]
    · obtain ⟨u, hu, rfl⟩ := pool_job_iff.mp hj
      obtain ⟨u', hu', -, hpc⟩ := hdone k (hroot k u hu hp)
      obtain rfl : u = u' := Option.some.inj (hu.symm.trans hu')
      exact ⟨false, by rw [Task.job, hpc]; rfl⟩

theorem Steady.queuesEmpty (s : w.Steady g calls) (hret : ∀ c < calls.length, w.returned c ≠ none) :
    w.graph.QueuesEmpty := by
  apply FlowGraph.queuesEmpty_iff.mpr
  intro n
  rw [s.matched n]
  refine World.Settled.inFlight (fun t ht => ?_) n
  obtain ⟨k, hk⟩ := List.getElem?_of_mem ht
  rcases s.settled hret hk with ⟨-, hpc⟩ | ⟨-, hpc⟩ <;> rw [hpc] <;> rfl

theorem Steady.tokens_joined (s : w.Steady g calls) (hret : ∀ c < calls.length, w.returned c ≠ none) :
    Tally.sumOver (Pc.tokens ∘ Task.pc) (w.tasks.drop calls.length) = 0 := by
  apply Tally.sumOver_eq_zero
  intro t ht
  obtain ⟨k, hk⟩ := List.getElem?_of_mem ht
  rw [List.getElem?_drop] at hk
  rcases s.settled hret hk with ⟨hlt, -⟩ | ⟨-, hpc⟩
  · exact absurd hlt (Nat.not_lt.mpr (Nat.le_add_right _ _))
  · rw [Function.comp_apply, hpc]
    rfl

theorem Steady.tokens_calls (s : w.Steady g calls) (hret : ∀ c < calls.length, w.returned c ≠ none) :
    (w.tasks.take calls.length).map (Pc.tokens ∘ Task.pc) = (List.range calls.length).map
      fun c => ((w.returnedPackets c).map Token.out : Multiset Token) := by
  have hlen : calls.length ≤ w.tasks.length := by
    by_contra hlt
    push Not at hlt
    obtain ⟨u, hu, -⟩ := returned_eq_some (s.returned_ok (hret _ hlt))
    exact absurd (List.getElem?_eq_some_iff.mp hu).1 (lt_irrefl _)
  refine List.ext_getElem (by simp [hlen]) fun k hk hk' => ?_
  have hk : k < calls.length := by simpa using hk'
  have hget := List.getElem?_eq_getElem (lt_of_lt_of_le hk hlen)
  rcases s.settled hret hget with ⟨-, hpc⟩ | ⟨hle, -⟩
  · simp [hpc, Pc.tokens]
  · omega

theorem Steady.tokens_eq (s : w.Steady g calls) (hret : ∀ c < calls.length, w.returned c ≠ none) :
    w.tokens = (((List.range calls.length).flatMap w.returnedPackets).map Token.out : List Token) := by
  have hsum : ∀ l : List CallId, (l.map fun c => ((w.returnedPackets c).map Token.out : Multiset Token)).sum =
      ((l.flatMap w.returnedPackets).map Token.out : List Token) := by
    intro l
    induction l with
    | nil => rfl
    | cons c l ih => rw [List.map_cons, List.sum_cons, ih, List.flatMap_cons, List.map_append, Multiset.coe_add]
  rw [tokens, (s.queuesEmpty hret).tokens, add_zero, total, ← List.take_append_drop calls.length w.tasks,
    Tally.sumOver_append, s.tokens_joined hret, add_zero, Tally.sumOver, s.tokens_calls hret, hsum]

/-- A call that asks for more permits than a semaphore can hold has not begun, or it has unwound. -/
def Overfull (g : FlowGraph M) (c : CallId) (call : Call) (w : World M) : Prop :=
  w.graph.entryPoints = g.entryPoints ∧ ∃ t, w.tasks[c]? = some t ∧ t.parent = none ∧
    (t.pc = .start call.entry call.packet call.permits ∨ ∃ reason, t.pc = .done (.panicked reason))

theorem overfull_step {c : CallId} {call : Call} (hentry : call.entry ∈ g.entryPoints)
    (hover : maxPermits < call.permits) {l : Label} (s : w.Sound g calls) (hw : w.Overfull g c call)
    (h : w.step l = some w') : w'.Overfull g c call := by
  obtain ⟨hpoints, t, ht, hparent, hpc⟩ := hw
  obtain ⟨u, hu, hs⟩ := step_iff.mp h
  refine ⟨(step_entryPoints hs).trans hpoints, ?_⟩
  by_cases hc : c = l.task
  · subst hc
    obtain rfl : t = u := Option.some.inj (ht.symm.trans hu)
    rcases hpc with hpc | ⟨reason, hpc⟩
    · obtain ⟨-, rfl⟩ := s.enters ht hparent hpc hs
      rw [enter, if_pos (hpoints ▸ hentry), if_neg (Nat.not_le.mpr hover)]
      exact ⟨_, List.getElem?_set_self (List.getElem?_eq_some_iff.mp ht).1, hparent, .inr ⟨_, rfl⟩⟩
    · obtain ⟨m, hm, -⟩ := step_pool ht hs
      have hlive := hm.live
      rw [Task.job, Pc.phase_live, hpc] at hlive
      cases hlive
  · obtain ⟨t', ht', hparent', hsame⟩ := s.root_stays hu hs hc ht hparent
    exact ⟨t', ht', hparent', by rwa [hsame]⟩

omit [Node M] in
theorem Overfull.not_returns {c : CallId} {call : Call} (hw : w.Overfull g c call) : ¬ w.Returns c := by
  obtain ⟨-, t, ht, hparent, hpc⟩ := hw
  rintro ⟨result, hret, hreturns⟩
  rw [returned_of_root ht hparent] at hret
  rcases hpc with hpc | ⟨reason, hpc⟩
  · rw [hpc] at hret
    cases hret
  · rw [hpc] at hret
    exact hreturns reason (Option.some.inj hret).symm

theorem permits_of_returns {ls : List Label} (h : run step (init g calls) ls = some w) {c : CallId} {call : Call}
    (hc : calls[c]? = some call) (hentry : call.entry ∈ g.entryPoints) (hret : w.Returns c) :
    call.permits ≤ maxPermits := by
  by_contra hover
  have hinit : (init g calls).Overfull g c call :=
    ⟨rfl, call.root c, by rw [init, List.getElem?_mapIdx, hc]; rfl, rfl, .inl rfl⟩
  have hinv := run_invariant (P := fun w : World M => w.Sound g calls ∧ w.Overfull g c call)
    (fun _ _ _ hw hstep =>
      ⟨sound_step hw.1 hstep, overfull_step hentry (Nat.lt_of_not_le hover) hw.1 hw.2 hstep⟩)
    ⟨sound_init g calls, hinit⟩ h
  exact hinv.2.not_returns hret

/-- If calls whose references have no error all return, none returns an error, and together they return
what their references yield, whatever the schedule and the numbers of permits. -/
theorem execute_parallel_schedule_independent (hst : Stateless M) (hut : g.Untimed) (hq : g.QueuesEmpty)
    (hcalls : ∀ call ∈ calls, ¬ call.Fails g) {ls : List Label} (h : run step (init g calls) ls = some w)
    (hreturns : ∀ c < calls.length, w.Returns c) :
    ∃ returned outs : List (List Packet),
      (List.range calls.length).map w.returned = returned.map (some ∘ .ok) ∧
      List.Forall₂ (fun call out => Ref g call.entry call.packet out) calls outs ∧
      returned.flatten.Perm outs.flatten := by
  have hret : ∀ c < calls.length, w.returned c ≠ none := by
    intro c hc
    obtain ⟨result, hresult, -⟩ := hreturns c hc
    rw [hresult]
    exact Option.some_ne_none result
  have hpermits : ∀ call ∈ calls, call.permits ≤ maxPermits := by
    intro call hmem
    obtain ⟨c, hc⟩ := List.getElem?_of_mem hmem
    have hentry : call.entry ∈ g.entryPoints := not_not.mp fun hentry => hcalls call hmem (.inl hentry)
    exact permits_of_returns h hc hentry (hreturns c (List.getElem?_eq_some_iff.mp hc).1)
  have s : w.Steady g calls :=
    run_invariant (fun _ _ _ s hstep => s.step hst hut (given_good hcalls) hstep) (steady_init hq hcalls hpermits) h
  have hyields := s.refines.1 ((List.range calls.length).flatMap w.returnedPackets : List Packet) (by
    rw [s.tokens_eq hret]
    exact yields_out.mpr rfl)
  obtain ⟨outs, hrefs, heq⟩ := yields_calls hyields
  refine ⟨(List.range calls.length).map w.returnedPackets, outs, ?_, hrefs, Multiset.coe_eq_coe.mp ?_⟩
  · rw [List.map_map]
    exact List.map_congr_left fun c hc => s.returned_ok (hret c (List.mem_range.mp hc))
  · rw [← List.flatMap_def]
    exact heq

theorem relay_sink (packet : Packet) : ¬ RefFails relay ⟨1⟩ packet := by
  intro h
  cases h with
  | missing hnode => cases hnode
  | oversized hnode hlimit =>
    cases hnode
    cases hlimit
  | served now h =>
    cases h with
    | failed hnode hp | panicked hnode hp =>
      cases hnode
      cases hp
    | deadEnd hnode hp hexit | fork hnode hp hexit | next hnode hp hexit => exact hexit (by decide)

theorem relay_source (packet : Packet) : ¬ RefFails relay ⟨0⟩ packet := by
  intro h
  cases h with
  | missing hnode => cases hnode
  | oversized hnode hlimit =>
    cases hnode
    cases hlimit
  | served now h =>
    cases h with
    | failed hnode hp | panicked hnode hp =>
      cases hnode
      cases hp
    | deadEnd hnode hp hexit hnext => cases hnext
    | fork hnode hp hexit htarget => cases htarget
    | next hnode hp hexit hfork hnext h =>
      cases hnext
      exact relay_sink _ h

theorem relayCalls_good : ∀ call ∈ relayCalls, ¬ call.Fails relay := by
  intro call hc hf
  simp only [relayCalls, List.mem_cons, List.not_mem_nil, or_false] at hc
  rcases hc with rfl | rfl <;> rcases hf with hentry | hf
  · exact hentry (by decide)
  · exact relay_source _ hf
  · exact hentry (by decide)
  · exact relay_source _ hf

def swappingRun : List Label :=
  [⟨0, .enter⟩, ⟨0, .admission 0⟩, ⟨0, .send⟩, ⟨1, .enter⟩, ⟨1, .admission 0⟩, ⟨1, .send⟩,
    ⟨1, .relock⟩, ⟨1, .recv 0⟩, ⟨0, .relock⟩, ⟨0, .recv 0⟩,
    ⟨0, .admission 0⟩, ⟨0, .send⟩, ⟨0, .relock⟩, ⟨0, .recv 0⟩,
    ⟨1, .admission 0⟩, ⟨1, .send⟩, ⟨1, .relock⟩, ⟨1, .recv 0⟩]

theorem execute_parallel_schedule_independent_relay : ∃ w, run step (init relay relayCalls) swappingRun = some w ∧
    ∃ returned outs : List (List Packet),
      (List.range 2).map w.returned = returned.map (some ∘ .ok) ∧
      List.Forall₂ (fun call out => Ref relay call.entry call.packet out) relayCalls outs ∧
      returned.flatten.Perm outs.flatten :=
  have hrun : run step (init relay relayCalls) swappingRun = some _ := rfl
  ⟨_, rfl, execute_parallel_schedule_independent (fun _ _ => rfl) (FlowGraph.untimed_of_entries (by decide))
    (FlowGraph.queuesEmpty_of_entries (by decide)) relayCalls_good hrun
    (fun | 0, _ | 1, _ => ⟨_, rfl, nofun⟩)⟩

end World
end Nyarix
