import Nyarix.Execution.Parallel
import Nyarix.Lib.Starvation

/-! The branches of the running calls as jobs of a fork-join pool: every step of the system
is a step of the pool, so the invariants of pools hold of it. -/

namespace Nyarix
open ForkJoin

def BranchResult.failed : BranchResult → Bool
  | .ok _ => false
  | .err _ | .panicked _ => true

theorem BranchResult.failed_of_ne_ok {result : BranchResult} (h : ∀ packets, result ≠ .ok packets) :
    result.failed = true := by
  cases result with
  | ok packets => exact absurd rfl (h packets)
  | err | panicked => rfl

def Pc.phase : Pc → Phase
  | .start .. | .lock .. | .send .. | .relock _ | .recv _ => .working
  | .acquire .. => .waiting
  | .join set _ => .joining set
  | .done result => .finished result.failed
  | .joined => .joined
  | .dropped => .dropped

def Task.job (t : Task) : Job := ⟨t.call, t.parent, t.permit, t.aborted, t.pc.phase⟩

@[simp] theorem Pc.phase_children (pc : Pc) : pc.phase.children = pc.set := by cases pc <;> rfl

@[simp] theorem Pc.phase_live (pc : Pc) : pc.phase.live = pc.live := by cases pc <;> rfl

theorem job_abortTasks (set : List TaskId) (tasks : List Task) :
    (abortTasks set tasks).map Task.job = abort set (tasks.map Task.job) := by
  refine List.ext_getElem? fun k => ?_
  simp only [abortTasks, abort, List.getElem?_map, List.getElem?_mapIdx, Option.map_map]
  congr 1
  funext t
  simp only [Function.comp_apply]
  split_ifs <;> rfl

theorem abort_nil (jobs : List Job) : abort [] jobs = jobs := by
  refine List.ext_getElem? fun k => ?_
  simp [abort, List.getElem?_mapIdx]

namespace World
variable {M : Type}

def pool (w : World M) : Pool := ⟨w.tasks.map Task.job, w.semaphore⟩

def Forks [Node M] (w : World M) (t : Task) (action : Action) : Prop :=
  ∃ current elapsed graph targets packet, t.pc = .recv current ∧ action = .recv elapsed ∧
    w.graph.receive current elapsed = some (graph, .fork targets packet)

variable (w : World M) {i : TaskId} {t : Task}

theorem pool_job {w : World M} (h : w.tasks[i]? = some t) : w.pool.jobs[i]? = some t.job := by
  simp only [pool, List.getElem?_map, h, Option.map_some]

theorem pool_job_iff {w : World M} {j : Job} : w.pool.jobs[i]? = some j ↔ ∃ t, w.tasks[i]? = some t ∧ t.job = j := by
  simp only [pool, List.getElem?_map, Option.map_eq_some_iff]

theorem pool_move (h : w.tasks[i]? = some t) {pc : Pc} (hp : pc.phase = t.pc.phase) :
    (w.move i t pc).pool = w.pool := by
  have hjob : Task.job { t with pc := pc } = t.job := by simp only [Task.job, hp]
  simp only [pool, move, List.map_set, hjob, Pool.mk.injEq, and_true]
  refine List.ext_getElem? fun k => ?_
  rw [Pool.getElem?_put (show (w.tasks.map Task.job)[i]? = some t.job from pool_job h)]
  split_ifs with hk
  · rw [hk]
    exact (pool_job h).symm
  · rfl

theorem pool_finish (hc : t.pc.set = []) (result : BranchResult) :
    (w.finish i t result).pool = w.pool.leave i t.job (.finished result.failed) := by
  simp only [pool, finish, Pool.leave, List.map_set, Pool.mk.injEq]
  refine ⟨?_, rfl⟩
  rw [show t.job.phase.children = [] by rw [Task.job, Pc.phase_children, hc], abort_nil]
  rfl

theorem pool_acquire {target : NodeId} {packet : Packet} :
    (w.acquire i t target packet).pool = w.pool.acquire i t.job := by
  simp only [pool, acquire, Pool.acquire, List.map_set, Pool.mk.injEq]
  exact ⟨rfl, rfl⟩

theorem pool_fork (targets : List NodeId) (packet : Packet) :
    (w.fork i t targets packet).pool = w.pool.fork i t.job targets.length := by
  simp only [pool, fork, Pool.fork, List.map_append, List.map_set, List.length_map, List.map_map,
    Pool.mk.injEq, and_true]
  congr 1
  change targets.map (fun _ => (⟨t.call, some i, false, false, .waiting⟩ : Job)) = _
  exact List.map_const'

theorem pool_join_ok {set : List TaskId} {results packets : List Packet} {c : TaskId} {child : Task} (joinErr : String) :
    (w.join i t set results c child joinErr (.ok packets)).pool = w.pool.join i t.job set c child.job := by
  simp only [pool, join, move, Pool.join, List.map_set, Pool.mk.injEq, and_true]
  rfl

theorem pool_join_fail {set : List TaskId} {c : TaskId} {child : Task} (result : BranchResult) (hf : result.failed = true) :
    (join.abortRest w i t set c child result).pool = w.pool.fail i t.job set c child.job := by
  simp only [pool, join.abortRest, finish, Pool.fail, Pool.join, Pool.leave, job_abortTasks, List.map_set,
    List.set_set, Pool.mk.injEq]
  refine ⟨?_, rfl⟩
  simp only [Task.job, Pc.phase, hf, Phase.children]

theorem pool_drop : (w.drop i t).pool = w.pool.leave i t.job .dropped := by
  have hset : t.job.phase.children = t.pc.set := Pc.phase_children _
  simp only [pool, drop, Pool.leave, job_abortTasks, List.map_set, hset, Pool.mk.injEq]
  exact ⟨rfl, rfl⟩

def permits (calls : List Call) (c : CallId) : Nat := (calls[c]?.map Call.permits).getD 0

theorem pool_init (g : FlowGraph M) (calls : List Call) :
    (init g calls).pool = Pool.init calls.length (permits calls) := by
  have hjobs : (calls.mapIdx Call.root).map Task.job = (List.range calls.length).map Job.root := by
    refine List.ext_getElem? fun k => ?_
    rw [List.getElem?_map, List.getElem?_mapIdx, List.getElem?_map, Option.map_map]
    by_cases hk : k < calls.length
    · simp [hk, Call.root, Task.job, Pc.phase, Job.root]
    · simp [hk]
  simp only [pool, init, Pool.init, hjobs, Pool.mk.injEq, true_and]
  rfl

variable [Node M] {w}

theorem Refused.working {a : Action} {result : BranchResult} (h : w.Refused t a result) :
    t.job.phase = .working := by
  cases h with
  | entry hpc | semaphore hpc | admission hpc | closed hpc | missing hpc => simp only [Task.job, hpc, Pc.phase]

theorem step_pool {a : Action} {w' : World M} (h : w.tasks[i]? = some t) (hs : Step w i t a w') :
    ∃ m, Pool.Step w.pool i t.job m w'.pool ∧ ∀ n, m = .fork n → w.Forks t a := by
  -- walking and locking leave the pool alone
  have hwork : t.job.phase = .working → ∀ w' : World M, w'.pool = w.pool →
      ∃ m, Pool.Step w.pool i t.job m w'.pool ∧ ∀ n, m = .fork n → w.Forks t a :=
    fun hp w' hw' => ⟨.work, hw' ▸ .work hp, by simp⟩
  have hfinish : t.job.phase = .working → ∀ result,
      ∃ m, Pool.Step w.pool i t.job m (w.finish i t result).pool ∧ ∀ n, m = .fork n → w.Forks t a := by
    intro hp result
    -- only a branch that joins has children to leave behind
    have hset : t.pc.set = [] := by
      rw [← Pc.phase_children, show t.pc.phase = .working from hp]
      rfl
    exact ⟨.finish result.failed, pool_finish w hset result ▸ .finish _ hp, by simp⟩
  cases step_cases hs with
  | entered hpc | admitted hpc =>
    have hp : t.job.phase = .working := by simp only [Task.job, hpc, Pc.phase]
    exact hwork hp _ (pool_move w h (by rw [hpc]; rfl))
  | acquired hpc hsem =>
    have hp : t.job.phase = .waiting := by simp only [Task.job, hpc, Pc.phase]
    exact ⟨.acquire, pool_acquire w ▸ .acquire hp hsem, by simp⟩
  | sent hpc =>
    have hp : t.job.phase = .working := by simp only [Task.job, hpc, Pc.phase]
    exact hwork hp _ (pool_move { w with graph := _ } h (by rw [hpc]; rfl))
  | relocked hpc =>
    have hp : t.job.phase = .working := by simp only [Task.job, hpc, Pc.phase]
    exact hwork hp _ (pool_move { w with mutex := _ } h (by rw [hpc]; rfl))
  | refused hr => exact hfinish hr.working _
  | @received current elapsed graph step hpc hr =>
    have hp : t.job.phase = .working := by simp only [Task.job, hpc, Pc.phase]
    cases step with
    | finished result => exact hfinish hp result
    | goto next packet =>
      exact hwork hp _ (pool_move { w with graph := _, mutex := _ } h (by rw [hpc]; rfl))
    | fork targets packet =>
      exact ⟨.fork targets.length, pool_fork w targets packet ▸ .fork _ hp,
        fun _ _ => ⟨_, _, _, _, _, hpc, rfl, hr⟩⟩
  | @joined set results c child joinErr packets hpc hc hd hmem =>
    have hp : t.job.phase = .joining set := by simp only [Task.job, hpc, Pc.phase]
    exact ⟨.join c, pool_join_ok w joinErr ▸ .join hp (pool_job hc) (by simp only [Task.job, hd]; rfl) hmem, by simp⟩
  | @failed set results c child joinErr result e hpc hc hd hf hmem =>
    have hp : t.job.phase = .joining set := by simp only [Task.job, hpc, Pc.phase]
    have hfinished : child.job.phase = .finished true := by
      simp only [Task.job, hd, Pc.phase, BranchResult.failed_of_ne_ok hf]
    exact ⟨.fail c, pool_join_fail w (.err e) rfl ▸ .fail hp (pool_job hc) hfinished hmem, by simp⟩
  | finished hpc =>
    have hp : t.job.phase = .joining [] := by simp only [Task.job, hpc, Pc.phase]
    exact ⟨.conclude, pool_finish w (by rw [hpc]; rfl) (.ok _) ▸ .conclude hp, by simp⟩
  | dropped ha hl =>
    exact ⟨.drop, pool_drop w ▸ .drop ha (by rw [Task.job, Pc.phase_live]; exact hl), by simp⟩

end World
end Nyarix
