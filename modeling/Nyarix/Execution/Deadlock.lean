import Nyarix.Execution.InFlight
import Nyarix.Graph.Stub

/-! Deadlock freedom of one `execute_parallel` call. A branch holds its permit while it joins
the branches it spawned, so a fork can leave every permit with a branch that waits for
children which wait for a permit. In runs without such a fork some branch can always step. -/

namespace Nyarix
open ForkJoin Transition

/-- Every queue has room in each lane for more packets than are left in it altogether. -/
def FlowGraph.HasRoom {M : Type} (g : FlowGraph M) : Prop :=
  ∀ n node, g.node n = some node → ∀ l, node.queue.len < (node.queue.lane l).capacity

theorem FlowGraph.QueuesEmpty.hasRoom {M : Type} {g : FlowGraph M} (h : g.QueuesEmpty) : g.HasRoom := by
  intro n node hn l
  rw [NodeQueue.len_eq, h n node hn]
  exact (node.queue.lane l).pos

namespace World
variable {M : Type} [Node M]

/-- A branch that forks leaves a free permit, or another branch of its call that neither
waits for a permit nor joins unfinished children without a failed one among them. -/
def ForkSafe (w : World M) (l : Label) : Prop :=
  ∀ t, w.tasks[l.task]? = some t → w.Forks t l.action → w.pool.MayFork l.task t.job

variable {g : FlowGraph M} {call : Call} {w w' : World M} {i : TaskId} {t : Task}

omit [Node M] in
theorem returned_iff {c : CallId} : w.returned c = none ↔ ¬ w.pool.Returned c := by
  unfold returned Pool.Returned
  simp only [pool_job_iff]
  constructor
  · rintro h ⟨j, failed, ⟨⟨call, parent, permit, aborted, pc⟩, ht, rfl⟩, rfl, hf⟩
    cases pc <;> simp_all [Task.job, Pc.phase]
  · intro h
    split
    · rename_i call permit aborted result ht
      exact absurd ⟨_, result.failed, ⟨_, ht, rfl⟩, rfl, rfl⟩ h
    · rfl

structure Moving (g : FlowGraph M) (call : Call) (w : World M) : Prop where
  sound : w.Sound g [call]
  backed : w.Backed
  leftover : (∀ n, w.graph.queued n ≤ g.queued n + w.inFlight n) ∨
    ∃ (i : TaskId) (j : Job), w.pool.jobs[i]? = some j ∧ j.aborted = true
  fed : w.pool.Starved 0 → w.pool.Returned 0

theorem moving_step {l : Label} (m : w.Moving g call) (hl : w.ForkSafe l) (h : w.step l = some w') :
    w'.Moving g call := by
  obtain ⟨t, ht, hs⟩ := step_iff.mp h
  obtain ⟨mv, hmv, hforks⟩ := step_pool ht hs
  have hbal := balance m.sound ht hs
  refine ⟨m.sound.step ht hs, backed_step m.sound m.backed ht hs, ?_, ?_⟩
  · by_cases ha : l.action = .abort
    · -- the aborted branch itself stays marked
      have hab : t.aborted = true := by
        rw [ha] at hs
        cases hs with
        | abort hab => exact hab
      obtain ⟨j, hj, haj⟩ := m.sound.pool.aborted_keep (pool_job ht) hmv (pool_job ht) hab
      exact .inr ⟨_, j, hj, haj⟩
    · refine m.leftover.imp (fun hle n => ?_) fun ⟨k, j, hj, haj⟩ => ?_
      · have hzero : t.leaves n l.action = 0 := by
          unfold Task.leaves
          split <;> simp_all
        have := hle n
        have := hbal n
        omega
      · obtain ⟨j', hj', haj'⟩ := m.sound.pool.aborted_keep (pool_job ht) hmv hj haj
        exact ⟨k, j', hj', haj'⟩
  · exact m.sound.pool.starved_step (pool_job ht) hmv (fun n hn => hl t ht (hforks n hn)) m.fed

omit [Node M] in
theorem moving_init (g : FlowGraph M) (call : Call) : (init g [call]).Moving g call := by
  have hzero := inFlight_init g [call]
  refine ⟨sound_init g [call], fun n => by rw [hzero]; exact Nat.zero_le _,
    .inl fun n => by rw [hzero]; exact le_rfl, fun ⟨hfree, _⟩ => ?_⟩
  have : 0 < call.permits := lt_of_lt_of_le Nat.one_pos (le_max_right _ _)
  exact absurd hfree this.ne'

theorem enabled_of_step {a : Action} (h : w.tasks[i]? = some t) (hs : Step w i t a w') :
    Enabled step w :=
  ⟨⟨i, a⟩, w', step_iff.mpr ⟨t, h, hs⟩⟩

theorem Moving.recv_enabled (m : w.Moving g call) (h : w.tasks[i]? = some t) {n : NodeId}
    (hpc : t.pc = .recv n) : Enabled step w := by
  obtain ⟨node, hnode⟩ := m.sound.node h (n := n) (by rw [hpc]; rfl)
  have hin : 0 < w.inFlight n := by
    have hle : t.pc.awaits n ≤ w.inFlight n :=
      Tally.le_sumOver (f := Pc.awaits n ∘ Task.pc) (List.mem_of_getElem? h)
    rw [hpc, Pc.awaits, if_pos rfl] at hle
    exact hle
  have hlen : 0 < node.queue.len := by
    have := m.backed n
    simp only [FlowGraph.queued, hnode, Option.map_some, Option.getD_some] at this
    omega
  cases hq : node.queue.tryRecvPrioritized with
  | none =>
    rw [NodeQueue.tryRecvPrioritized_eq_none] at hq
    simp [NodeQueue.len_eq, hq] at hlen
  | some r =>
    obtain ⟨packet, queue⟩ := r
    obtain ⟨w', hw'⟩ : ∃ w', w.recv i t n 0 = some w' := by
      simp only [recv, FlowGraph.receive, hnode, hq, Option.map_some]
      exact ⟨_, rfl⟩
    exact enabled_of_step h (.recv hpc hw')

theorem Moving.mutex_enabled (m : w.Moving g call) (hfree : w.mutex = none → Enabled step w) :
    Enabled step w := by
  cases hm : w.mutex with
  | none => exact hfree hm
  | some k =>
    obtain ⟨u, n, hu, hn⟩ := m.sound.mutex k hm
    exact m.recv_enabled hu hn

theorem Moving.relock_enabled (m : w.Moving g call) (h : w.tasks[i]? = some t) {n : NodeId}
    (hpc : t.pc = .relock n) : Enabled step w :=
  m.mutex_enabled fun hm => enabled_of_step h (.relock hpc hm)

theorem join_enabled (h : w.tasks[i]? = some t) {c : TaskId} {jc : Job} {failed : Bool}
    (hc : c ∈ t.pc.set) (hjc : w.pool.jobs[c]? = some jc) (hf : jc.phase = .finished failed) :
    Enabled step w := by
  obtain ⟨child, hchild, rfl⟩ := pool_job_iff.mp hjc
  obtain ⟨result, hd⟩ : ∃ result, child.pc = .done result := by
    cases hp : child.pc <;> simp_all [Task.job, Pc.phase]
  cases hpc : t.pc with
  | join set results => exact enabled_of_step (a := .join c "") h (.join hpc hchild hd (by rwa [hpc] at hc))
  | _ => simp [hpc, Pc.set] at hc

theorem Moving.inFlight_enabled (m : w.Moving g call) {n : NodeId} (hin : w.inFlight n ≠ 0) : Enabled step w := by
  obtain ⟨u, hu, hpos⟩ : ∃ u ∈ w.tasks, u.pc.awaits n ≠ 0 := by
    by_contra hnone
    push Not at hnone
    exact hin (Tally.sumOver_eq_zero hnone)
  obtain ⟨k, hk⟩ := List.getElem?_of_mem hu
  cases hup : u.pc with
  | relock => exact m.relock_enabled hk hup
  | recv => exact m.recv_enabled hk hup
  | _ => simp [hup, Pc.awaits] at hpos

theorem Moving.aborted_enabled (m : w.Moving g call) (hret : ¬ w.pool.Returned 0) {k : TaskId} {j : Job}
    (hj : w.pool.jobs[k]? = some j) (haj : j.aborted = true) : Enabled step w := by
  have hgroup : j.group = 0 := by
    obtain ⟨r, hr, hpar⟩ := m.sound.pool.group_root hj
    simpa using (m.sound.roots j.group).mp ⟨r, hr, hpar⟩
  rcases hgroup ▸ m.sound.pool.witness k j hj haj with hr | ⟨q, jq, c, jc, hjq, -, hc, hjc, hf, -⟩
  · exact absurd hr hret
  · obtain ⟨u, hu, rfl⟩ := pool_job_iff.mp hjq
    exact join_enabled hu (by rwa [Task.job, Pc.phase_children] at hc) hjc hf

omit [Node M] in
theorem Moving.inFlight_of_full (m : w.Moving g call) (hroom : g.HasRoom)
    (hle : ∀ n, w.graph.queued n ≤ g.queued n + w.inFlight n) {n : NodeId} {node : GraphNode M} {packet : Packet}
    (hnode : w.graph.node n = some node) (hfull : node.queue.trySend packet = none) : w.inFlight n ≠ 0 := by
  obtain ⟨node₀, hnode₀⟩ : ∃ node₀, g.node n = some node₀ := by
    rw [← Option.isSome_iff_exists, ← m.sound.lanes.isSome, hnode]
    rfl
  have hlanes := m.sound.lanes n
  rw [hnode, hnode₀, Option.map_some, Option.map_some, Option.some.injEq] at hlanes
  have hcap := congrFun hlanes (laneFor packet)
  have hlen := NodeQueue.trySend_eq_none.mp hfull
  have hspare := hroom n node₀ hnode₀ (laneFor packet)
  have hpart := node.queue.lane_le_len (laneFor packet)
  have hqueued := hle n
  simp only [FlowGraph.queued, hnode, hnode₀, Option.map_some, Option.getD_some] at hqueued
  omega

/-- A send can only be held up by packets of branches that are still on their way to receive,
or by those of aborted branches. -/
theorem Moving.send_enabled (m : w.Moving g call) (hroom : g.HasRoom) (hret : ¬ w.pool.Returned 0)
    (h : w.tasks[i]? = some t) {n : NodeId} {packet : Packet} (hpc : t.pc = .send n packet) :
    Enabled step w := by
  obtain ⟨node, hnode⟩ := m.sound.node h (n := n) (by rw [hpc]; rfl)
  cases hq : node.queue.trySend packet with
  | some queue =>
    obtain ⟨w', hw'⟩ : ∃ w', w.send i t n packet = some w' := by
      simp only [send, hnode, hq, Option.map_some]
      exact ⟨_, rfl⟩
    exact enabled_of_step h (.send hpc hw')
  | none =>
    rcases m.leftover with hle | ⟨k, j, hj, haj⟩
    · exact m.inFlight_enabled (m.inFlight_of_full hroom hle hnode hq)
    · exact m.aborted_enabled hret hj haj

theorem Moving.enabled (m : w.Moving g call) (hroom : g.HasRoom) (hret : w.returned 0 = none) :
    Enabled step w := by
  rw [returned_iff] at hret
  obtain ⟨r, hr, hroot⟩ := (m.sound.roots 0).mpr Nat.one_pos
  obtain ⟨i, j, hj, hg, hcase⟩ := m.sound.pool.progress hr hroot hret fun hst => hret (m.fed hst)
  obtain ⟨t, ht, rfl⟩ := pool_job_iff.mp hj
  rcases hcase with hwork | ⟨hwait, hfree⟩ | hempty | ⟨c, hc, jc, failed, hjc, hf⟩
  · cases hpc : t.pc with
    | start => exact m.mutex_enabled fun hm => enabled_of_step ht (.enter hpc hm)
    | lock => exact m.mutex_enabled fun hm => enabled_of_step (a := .admission 0) ht (.admission hpc hm)
    | send => exact m.send_enabled hroom hret ht hpc
    | relock => exact m.relock_enabled ht hpc
    | recv => exact m.recv_enabled ht hpc
    | _ => simp [Task.job, hpc, Pc.phase] at hwork
  · cases hpc : t.pc with
    | acquire => exact enabled_of_step ht (.acquire hpc (hg ▸ hfree))
    | _ => simp [Task.job, hpc, Pc.phase] at hwait
  · cases hpc : t.pc with
    | join set results =>
      obtain rfl : set = [] := by simpa [Task.job, hpc, Pc.phase] using hempty
      exact enabled_of_step ht (.finish hpc)
    | _ => simp [Task.job, hpc, Pc.phase] at hempty
  · exact join_enabled ht (by rwa [Task.job, Pc.phase_children] at hc) hjc hf

/-- While its forks are safe, a call that has not returned has a branch that can step. -/
theorem execute_parallel_progress {ls : List Label} (hroom : g.HasRoom)
    (hsafe : Along step ForkSafe (init g [call]) ls) (h : run step (init g [call]) ls = some w)
    (hret : w.returned 0 = none) : Enabled step w :=
  (run_preserves (fun _ _ _ m hl hs => moving_step m hl hs) (moving_init g call) hsafe h).enabled hroom hret

/-- Two forks in a row: the one branch of the first makes the second. -/
def nestedFork : FlowGraph StubNode :=
  stubGraph [(.source, .passes), (.transformer, .passes), (.sink, .passes)]
    [(0, 1, .parallel), (1, 2, .parallel)]

def nestedForkCall (maxConcurrentBranches : Nat) : Call := ⟨⟨0⟩, stubPacket 7, maxConcurrentBranches⟩

def firstFork : List Label :=
  [⟨0, .enter⟩, ⟨0, .admission 0⟩, ⟨0, .send⟩, ⟨0, .relock⟩, ⟨0, .recv 0⟩]

def secondFork : List Label :=
  [⟨1, .acquire⟩, ⟨1, .admission 0⟩, ⟨1, .send⟩, ⟨1, .relock⟩, ⟨1, .recv 0⟩]

theorem execute_parallel_progress_nestedFork : ∃ w, run step (init nestedFork [nestedForkCall 2]) firstFork = some w ∧
    Enabled step w := by
  have hroom : nestedFork.HasRoom := (FlowGraph.queuesEmpty_of_entries (by decide)).hasRoom
  have hsafe : Along step ForkSafe (init nestedFork [nestedForkCall 2]) firstFork := by
    refine along_cons rfl ?_ (along_cons rfl ?_ (along_cons rfl ?_ (along_cons rfl ?_
      (along_cons rfl ?_ trivial))))
    all_goals
      intro t ht _
      obtain rfl := Option.some.inj ht
      exact .inl (by decide)
  exact ⟨_, rfl, execute_parallel_progress hroom hsafe rfl rfl⟩

theorem not_enabled_of_waits {n : NodeId} {packet : Packet} (hfree : w.semaphore 0 = 0)
    (htasks : w.tasks = [⟨0, none, false, false, .join [1] []⟩, ⟨0, some 0, true, false, .join [2] []⟩,
      ⟨0, some 1, false, false, .acquire n packet⟩]) : ¬ Enabled step w := by
  rintro ⟨⟨i, a⟩, w', h⟩
  obtain ⟨t, ht, hs⟩ := step_iff.mp h
  rw [htasks] at ht
  match i, ht with
  | 0, ht | 1, ht =>
    obtain rfl := Option.some.inj ht
    cases hs with
    | join hpc hc hd hmem =>
      obtain ⟨rfl, rfl⟩ := Pc.join.inj hpc
      obtain rfl := List.mem_singleton.mp hmem
      rw [htasks] at hc
      obtain rfl := Option.some.inj hc
      cases hd
    | abort ha => cases ha
    | _ hpc => cases hpc
  | 2, ht =>
    obtain rfl := Option.some.inj ht
    cases hs with
    | acquire hpc hs => exact absurd hfree hs.ne'
    | abort ha => cases ha
    | _ hpc => cases hpc

/-- With one permit the second fork waits for a child that waits for the permit it holds. -/
theorem nestedFork_deadlock : nestedFork.Acyclic ∧ nestedFork.allowedFeedbackEdges = ∅ ∧
    nestedFork.QueuesEmpty ∧ ∃ w,
      run step (init nestedFork [nestedForkCall 1]) (firstFork ++ secondFork) = some w ∧
      w.returned 0 = none ∧ ¬ Enabled step w := by
  refine ⟨⟨fun n => n.uuid.toNat, by decide⟩, rfl, FlowGraph.queuesEmpty_of_entries (by decide), _, rfl, rfl, ?_⟩
  exact not_enabled_of_waits rfl rfl

end World
end Nyarix
