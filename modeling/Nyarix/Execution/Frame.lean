import Nyarix.Execution.Scheduler

/-! What a step leaves alone: the branches that do not step, the nodes of the graph, and the
totals over all branches up to the places of those that move. -/

namespace Nyarix
open ForkJoin

def Pc.visits : Pc → Option NodeId
  | .send n _ | .relock n | .recv n => some n
  | _ => none

section Receive
variable {M : Type} [Node M] {g g' : FlowGraph M}

theorem receive_eq_some {current : NodeId} {elapsed : Duration} {step : BranchStep}
    (h : g.receive current elapsed = some (g', step)) : ∃ node packet queue,
      g.node current = some node ∧ node.queue.tryRecvPrioritized = some (packet, queue) ∧
      g' = g.modifyNode current (fun _ => ({ node with queue := queue }.processTimed packet elapsed).1) ∧
      step = g'.branchStep current ({ node with queue := queue }.processTimed packet elapsed).2 := by
  unfold FlowGraph.receive at h
  split at h
  · cases h
  · rename_i node hnode
    split at h
    · cases h
    · rename_i packet queue hq
      cases h
      exact ⟨node, packet, queue, hnode, hq, rfl, rfl⟩

end Receive

def FlowGraph.SameLanes {M : Type} (g g' : FlowGraph M) : Prop :=
  ∀ n, (g'.node n).map (fun node l => (node.queue.lane l).capacity) =
    (g.node n).map fun node l => (node.queue.lane l).capacity

theorem FlowGraph.SameLanes.isSome {M : Type} {g g' : FlowGraph M} (h : g.SameLanes g') (n : NodeId) :
    (g'.node n).isSome = (g.node n).isSome := by
  simpa only [Option.isSome_map] using congrArg Option.isSome (h n)

theorem FlowGraph.sameLanes_modify {M : Type} {g : FlowGraph M} {n : NodeId} {node : GraphNode M}
    (hnode : g.node n = some node) {f : GraphNode M → GraphNode M}
    (hf : ∀ l, ((f node).queue.lane l).capacity = (node.queue.lane l).capacity) :
    g.SameLanes (g.modifyNode n f) := by
  intro m
  rw [FlowGraph.node_modifyNode]
  split_ifs with hm
  · simp only [hm, hnode, Option.map_some, hf]
  · rfl

namespace World
variable {M : Type}

def total {A : Type} [AddCommMonoid A] (f : Pc → A) (w : World M) : A :=
  Tally.sumOver (f ∘ Task.pc) w.tasks

section Total
variable {A : Type} [AddCommMonoid A] (f : Pc → A) (w : World M) {i : TaskId} {t : Task}

theorem sumOver_abortTasks (set : List TaskId) (tasks : List Task) :
    Tally.sumOver (f ∘ Task.pc) (abortTasks set tasks) = Tally.sumOver (f ∘ Task.pc) tasks := by
  unfold Tally.sumOver
  congr 1
  refine List.ext_getElem? fun k => ?_
  simp only [abortTasks, List.getElem?_map, List.getElem?_mapIdx, Option.map_map]
  congr 1
  funext t
  simp only [Function.comp_apply]
  split_ifs <;> rfl

theorem total_move (h : w.tasks[i]? = some t) (pc : Pc) :
    (w.move i t pc).total f + f t.pc = w.total f + f pc :=
  Tally.sumOver_set (f ∘ Task.pc) { t with pc := pc } h

theorem total_finish (h : w.tasks[i]? = some t) (result : BranchResult) :
    (w.finish i t result).total f + f t.pc = w.total f + f (.done result) :=
  Tally.sumOver_set (f ∘ Task.pc) { t with pc := .done result, permit := false } h

theorem total_acquire (h : w.tasks[i]? = some t) (target : NodeId) (packet : Packet) :
    (w.acquire i t target packet).total f + f t.pc = w.total f + f (.lock target packet) :=
  Tally.sumOver_set (f ∘ Task.pc) { t with pc := .lock target packet, permit := true } h

theorem total_fork (h : w.tasks[i]? = some t) (targets : List NodeId) (packet : Packet) :
    (w.fork i t targets packet).total f + f t.pc = w.total f +
      f (.join (List.range' w.tasks.length targets.length) []) +
      Tally.sumOver (fun target => f (.acquire target packet)) targets := by
  have := Tally.sumOver_set (f ∘ Task.pc)
    { t with pc := .join (List.range' w.tasks.length targets.length) [] } h
  simp only [total, fork, Tally.sumOver_append, Tally.sumOver_map]
  rw [add_right_comm]
  exact congrArg (· + _) this

theorem sumOver_join (h : w.tasks[i]? = some t) {c : TaskId} {child : Task} (hc : w.tasks[c]? = some child)
    (hci : c ≠ i) (t' child' : Task) :
    Tally.sumOver (f ∘ Task.pc) ((w.tasks.set c child').set i t') + (f t.pc + f child.pc) =
      w.total f + (f t'.pc + f child'.pc) := by
  have hi : (w.tasks.set c child')[i]? = some t := by rw [List.getElem?_set_ne hci, h]
  have h₁ := Tally.sumOver_set (f ∘ Task.pc) t' hi
  have h₂ := Tally.sumOver_set (f ∘ Task.pc) child' hc
  rw [Function.comp_apply, Function.comp_apply] at h₁ h₂
  calc _ = Tally.sumOver (f ∘ Task.pc) (w.tasks.set c child') + f t'.pc + f child.pc := by
        rw [← add_assoc, h₁]
    _ = Tally.sumOver (f ∘ Task.pc) (w.tasks.set c child') + f child.pc + f t'.pc := add_right_comm _ _ _
    _ = _ := by rw [h₂, total, add_assoc, add_comm (f child'.pc)]

theorem total_join_ok (h : w.tasks[i]? = some t) {c : TaskId} {child : Task}
    (hc : w.tasks[c]? = some child) (hci : c ≠ i) (set : List TaskId) (results packets : List Packet)
    (joinErr : String) : (w.join i t set results c child joinErr (.ok packets)).total f + (f t.pc + f child.pc) =
      w.total f + (f (.join (set.erase c) (results ++ packets)) + f .joined) :=
  sumOver_join f w h hc hci _ _

theorem total_join_fail (h : w.tasks[i]? = some t) {c : TaskId} {child : Task}
    (hc : w.tasks[c]? = some child) (hci : c ≠ i) (set : List TaskId) (result : BranchResult) :
    (join.abortRest w i t set c child result).total f + (f t.pc + f child.pc) =
      w.total f + (f (.done result) + f .joined) :=
  (congrArg (· + _) (sumOver_abortTasks f _ _)).trans (sumOver_join f w h hc hci _ _)

theorem total_drop (h : w.tasks[i]? = some t) :
    (w.drop i t).total f + f t.pc = w.total f + f .dropped :=
  (congrArg (· + _) (sumOver_abortTasks f _ _)).trans
    (Tally.sumOver_set (f ∘ Task.pc) { t with pc := .dropped, permit := false } h)

end Total

def All (I : CallId → Pc → Prop) (w : World M) : Prop := ∀ t ∈ w.tasks, I t.call t.pc

section All
variable {I : CallId → Pc → Prop} {w : World M} {i : TaskId} {t : Task}

theorem mem_abortTasks {set : List TaskId} {tasks : List Task} {t : Task} (h : t ∈ abortTasks set tasks) :
    ∃ t' ∈ tasks, t'.call = t.call ∧ t'.pc = t.pc := by
  obtain ⟨k, hk⟩ := List.getElem?_of_mem h
  rw [abortTasks, List.getElem?_mapIdx, Option.map_eq_some_iff] at hk
  obtain ⟨t', ht', rfl⟩ := hk
  refine ⟨t', List.mem_of_getElem? ht', ?_⟩
  split_ifs <;> exact ⟨rfl, rfl⟩

theorem all_set (hw : w.All I) {t' : Task} (ht' : I t'.call t'.pc) : ∀ u ∈ w.tasks.set i t', I u.call u.pc := by
  intro u hu
  rcases List.mem_or_eq_of_mem_set hu with hu | rfl
  · exact hw u hu
  · exact ht'

theorem all_move (hw : w.All I) {pc : Pc} (hpc : I t.call pc) : (w.move i t pc).All I := all_set hw hpc

theorem all_finish (hw : w.All I) {result : BranchResult} (hr : I t.call (.done result)) :
    (w.finish i t result).All I := all_set hw hr

theorem all_acquire (hw : w.All I) {target : NodeId} {packet : Packet} (hpc : I t.call (.lock target packet)) :
    (w.acquire i t target packet).All I := all_set hw hpc

theorem all_fork (hw : w.All I) {targets : List NodeId} {packet : Packet}
    (hjoin : I t.call (.join (List.range' w.tasks.length targets.length) []))
    (hnew : ∀ target ∈ targets, I t.call (.acquire target packet)) : (w.fork i t targets packet).All I := by
  intro u hu
  rcases List.mem_append.mp hu with hu | hu
  · exact all_set hw hjoin u hu
  · obtain ⟨target, ht, rfl⟩ := List.mem_map.mp hu
    exact hnew target ht

theorem all_join_ok (hw : w.All I) {set : List TaskId} {results packets : List Packet} {c : TaskId}
    {child : Task} {joinErr : String} (hchild : I child.call .joined)
    (hjoin : I t.call (.join (set.erase c) (results ++ packets))) :
    (w.join i t set results c child joinErr (.ok packets)).All I := by
  intro u hu
  rcases List.mem_or_eq_of_mem_set hu with hu | rfl
  · exact all_set hw hchild u hu
  · exact hjoin

theorem all_join_fail (hw : w.All I) {set : List TaskId} {c : TaskId} {child : Task} {result : BranchResult}
    (hchild : I child.call .joined) (hr : I t.call (.done result)) :
    (join.abortRest w i t set c child result).All I := by
  intro u hu
  obtain ⟨u', hu', hc, hpc⟩ := mem_abortTasks hu
  rw [← hc, ← hpc]
  rcases List.mem_or_eq_of_mem_set hu' with hu' | rfl
  · exact all_set hw hchild u' hu'
  · exact hr

theorem all_drop (hw : w.All I) (hd : I t.call .dropped) : (w.drop i t).All I := by
  intro u hu
  obtain ⟨u', hu', hc, hpc⟩ := mem_abortTasks hu
  rw [← hc, ← hpc]
  have hset : ∀ v ∈ w.tasks.set i { t with pc := .dropped, permit := false }, I v.call v.pc := all_set hw hd
  exact hset u' hu'

end All

variable {w w' : World M} {i : TaskId} {t : Task}

theorem child_ne {limit : Nat → Nat} (v : w.pool.Valid limit) (h : w.tasks[i]? = some t)
    {set : List TaskId} {results : List Packet} (hpc : t.pc = .join set results) {c : TaskId}
    (hc : c ∈ set) : c ≠ i := by
  obtain ⟨_, _, _, hlt, _⟩ := v.child (pool_job h) (c := c) (by
    rw [Task.job, hpc]
    exact hc)
  exact hlt.ne'

theorem getElem?_abortTasks {set : List TaskId} {tasks : List Task} {k : TaskId} {u : Task}
    (h : tasks[k]? = some u) : ∃ u', (abortTasks set tasks)[k]? = some u' ∧ u'.pc = u.pc := by
  rw [abortTasks, List.getElem?_mapIdx, h, Option.map_some]
  split_ifs <;> exact ⟨_, rfl, rfl⟩

variable [Node M]

theorem step_frame {a : Action} (hs : Step w i t a w') {k : TaskId} {u : Task} (hk : w.tasks[k]? = some u)
    (hki : k ≠ i) (hjoined : u.pc.live = true ∨ k ∉ t.pc.set) : ∃ u', w'.tasks[k]? = some u' ∧ u'.pc = u.pc := by
  have hset : ∀ t', (w.tasks.set i t')[k]? = some u := fun t' => by
    rw [List.getElem?_set_ne hki.symm, hk]
  have hjoin : ∀ {c : TaskId} {child child' t' : Task} {set : List TaskId} {results : List Packet}
      {result : BranchResult}, t.pc = .join set results → w.tasks[c]? = some child → child.pc = .done result →
      c ∈ set → ((w.tasks.set c child').set i t')[k]? = some u := by
    intro c child child' t' set results result hpc hc hd hmem
    have hck : c ≠ k := by
      rintro rfl
      rcases hjoined with hl | hout
      · rw [Option.some.inj (hk.symm.trans hc), hd] at hl
        cases hl
      · rw [hpc] at hout
        exact hout hmem
    rw [List.getElem?_set_ne hki.symm, List.getElem?_set_ne hck, hk]
  have hlt := (List.getElem?_eq_some_iff.mp hk).1
  cases step_cases hs with
  | entered | acquired | admitted | sent | relocked | refused | finished => exact ⟨u, hset _, rfl⟩
  | @received current elapsed graph step =>
    cases step with
    | finished | goto => exact ⟨u, hset _, rfl⟩
    | fork targets packet =>
      refine ⟨u, ?_, rfl⟩
      refine (List.getElem?_append_left ?_).trans (hset _)
      rw [List.length_set]
      exact hlt
  | joined hpc hc hd hmem => exact ⟨u, hjoin hpc hc hd hmem, rfl⟩
  | failed hpc hc hd hf hmem => exact getElem?_abortTasks (hjoin hpc hc hd hmem)
  | dropped => exact getElem?_abortTasks (hset _)

theorem step_graph {a : Action} (hs : Step w i t a w') : w'.graph = w.graph ∨
    (∃ n node packet queue, t.pc = .send n packet ∧ w.graph.node n = some node ∧
      node.queue.trySend packet = some queue ∧
      w'.graph = w.graph.modifyNode n ({ · with queue := queue })) ∨
    ∃ n elapsed step, t.pc = .recv n ∧ w.graph.receive n elapsed = some (w'.graph, step) := by
  cases step_cases hs with
  | sent hpc hnode hq => exact .inr (.inl ⟨_, _, _, _, hpc, hnode, hq, rfl⟩)
  | received hpc hr => exact .inr (.inr ⟨_, _, _, hpc, by rw [hr, proceed_graph]⟩)
  | entered | acquired | admitted | relocked | refused | joined | failed | finished | dropped => exact .inl rfl

theorem step_entryPoints {a : Action} (hs : Step w i t a w') : w'.graph.entryPoints = w.graph.entryPoints := by
  rcases step_graph hs with hg | ⟨n, node, packet, queue, -, -, -, hg⟩ | ⟨n, elapsed, step, -, hr⟩
  · rw [hg]
  · rw [hg]
    rfl
  · obtain ⟨node, packet, queue, -, -, hg, -⟩ := receive_eq_some hr
    rw [hg]
    rfl

theorem step_sameLanes {a : Action} (hs : Step w i t a w') : w.graph.SameLanes w'.graph := by
  rcases step_graph hs with hg | ⟨n, node, packet, queue, -, hnode, hq, hg⟩ | ⟨n, elapsed, step, -, hr⟩
  · rw [hg]
    exact fun _ => rfl
  · rw [hg]
    exact FlowGraph.sameLanes_modify hnode (NodeQueue.trySend_capacity hq)
  · obtain ⟨node, packet, queue, hnode, hq, hg, -⟩ := receive_eq_some hr
    rw [hg]
    refine FlowGraph.sameLanes_modify hnode fun l => ?_
    rw [GraphNode.processTimed_queue]
    exact NodeQueue.tryRecvPrioritized_capacity hq l

omit [Node M] in
theorem returned_of_root (h : w.tasks[i]? = some t) (hparent : t.parent = none) :
    w.returned i = match t.pc with
      | .done result => some result
      | _ => none := by
  unfold returned
  rw [h]
  rcases t with ⟨call, parent, permit, aborted, pc⟩
  obtain rfl : parent = none := hparent
  cases pc <;> rfl

omit [Node M] in
theorem returned_eq_some {c : CallId} {result : BranchResult} (h : w.returned c = some result) :
    ∃ t, w.tasks[c]? = some t ∧ t.parent = none ∧ t.pc = .done result := by
  unfold returned at h
  split at h
  · cases h
    exact ⟨_, ‹_›, rfl, rfl⟩
  · cases h

omit [Node M] in
theorem returned_of_live (h : w.tasks[i]? = some t) (hl : t.pc.live = true) : w.returned i = none := by
  cases hreturned : w.returned i with
  | none => rfl
  | some result =>
    obtain ⟨u, hu, -, hpc⟩ := returned_eq_some hreturned
    obtain rfl : u = t := Option.some.inj (hu.symm.trans h)
    rw [hpc] at hl
    cases hl

def MutexHeld (w : World M) : Prop :=
  ∀ i, w.mutex = some i → ∃ t n, w.tasks[i]? = some t ∧ t.pc = .recv n

theorem step_mutexHeld {a : Action} (h : w.tasks[i]? = some t) (hs : Step w i t a w') (hm : w.MutexHeld) :
    w'.MutexHeld := by
  -- the lock keeps its holder unless the step is the holder's own
  have hkeep : w'.mutex = w.mutex → (∀ n, t.pc ≠ .recv n) → w'.MutexHeld := by
    intro hmutex hpc k hk
    obtain ⟨u, n, hu, hn⟩ := hm k (hmutex ▸ hk)
    have hki : k ≠ i := by
      rintro rfl
      exact hpc n (Option.some.inj (hu.symm.trans h) ▸ hn)
    obtain ⟨u', hu', hpc'⟩ := step_frame hs hu hki (.inl (by rw [hn]; rfl))
    exact ⟨u', n, hu', hpc'.trans hn⟩
  cases step_cases hs with
  | entered hpc | acquired hpc | admitted hpc | sent hpc | joined hpc | failed hpc | finished hpc =>
    exact hkeep rfl (by simp [hpc])
  | refused hr => exact hkeep rfl hr.ne_recv
  | @relocked current node =>
    intro k hk
    obtain rfl : i = k := Option.some.inj hk
    exact ⟨_, current, List.getElem?_set_self (List.getElem?_eq_some_iff.mp h).1, rfl⟩
  | received =>
    intro k hk
    rw [proceed_mutex] at hk
    cases hk
  | dropped ha hl =>
    intro k hk
    simp only [drop] at hk
    split_ifs at hk with hi
    obtain ⟨u, n, hu, hn⟩ := hm k hk
    have hki : k ≠ i := by
      rintro rfl
      exact hi hk
    obtain ⟨u', hu', hpc'⟩ := step_frame (.abort ha hl) hu hki (.inl (by rw [hn]; rfl))
    exact ⟨u', n, hu', hpc'.trans hn⟩

def PlacedIn (g : FlowGraph M) (_ : CallId) (pc : Pc) : Prop :=
  ∀ n, pc.visits = some n → (g.node n).isSome = true

/-- What holds in every run from `g` and `calls`. -/
structure Sound (g : FlowGraph M) (calls : List Call) (w : World M) : Prop where
  pool : w.pool.Valid (permits calls)
  roots : w.pool.Roots calls.length
  mutex : w.MutexHeld
  lanes : g.SameLanes w.graph
  placed : w.All (PlacedIn g)

variable {g : FlowGraph M} {calls : List Call}

omit [Node M] in
theorem Sound.node (s : w.Sound g calls) (h : w.tasks[i]? = some t) {n : NodeId}
    (hn : t.pc.visits = some n) : ∃ node, w.graph.node n = some node := by
  rw [← Option.isSome_iff_exists, s.lanes.isSome]
  exact s.placed t (List.mem_of_getElem? h) n hn

theorem Sound.step_placed (s : w.Sound g calls) (h : w.tasks[i]? = some t) {a : Action}
    (hs : Step w i t a w') : w'.All (PlacedIn g) := by
  have hp := s.placed
  have hstay : ∀ {n}, t.pc.visits = some n → ∀ {pc : Pc}, pc.visits = some n → PlacedIn g t.call pc :=
    fun hpc _ hpc' n hn => hp t (List.mem_of_getElem? h) n (hpc.trans (hpc'.symm.trans hn))
  have hnowhere : ∀ {c : CallId} {pc : Pc}, pc.visits = none → PlacedIn g c pc := by
    intro c pc hpc n hn
    rw [hpc] at hn
    cases hn
  cases step_cases hs with
  | entered => exact all_move hp (hnowhere rfl)
  | acquired => exact all_acquire hp (hnowhere rfl)
  | @admitted current packet now admitted hpc hm hadmission =>
    refine all_move hp fun n hn => ?_
    obtain rfl : current = n := Option.some.inj hn
    obtain ⟨node, hnode, -⟩ := FlowGraph.admission_eq_ok hadmission
    rw [← s.lanes.isSome, hnode]
    rfl
  | sent hpc => exact all_move (w := { w with graph := _ }) hp (hstay (by rw [hpc]; rfl) rfl)
  | relocked hpc => exact all_move (w := { w with mutex := _ }) hp (hstay (by rw [hpc]; rfl) rfl)
  | @received current elapsed graph step =>
    have hp' : ({ w with graph := graph, mutex := none } : World M).All (PlacedIn g) := hp
    cases step with
    | finished => exact all_finish hp' (hnowhere rfl)
    | goto => exact all_move hp' (hnowhere rfl)
    | fork => exact all_fork hp' (hnowhere rfl) fun _ _ => hnowhere rfl
  | refused | finished => exact all_finish hp (hnowhere rfl)
  | joined => exact all_join_ok hp (hnowhere rfl) (hnowhere rfl)
  | failed => exact all_join_fail hp (hnowhere rfl) (hnowhere rfl)
  | dropped => exact all_drop hp (hnowhere rfl)

theorem Sound.step (s : w.Sound g calls) (h : w.tasks[i]? = some t) {a : Action}
    (hs : Step w i t a w') : w'.Sound g calls := by
  obtain ⟨m, hm, -⟩ := step_pool h hs
  exact ⟨s.pool.step (pool_job h) hm, s.pool.roots_step (pool_job h) hm s.roots,
    step_mutexHeld h hs s.mutex, fun n => (step_sameLanes hs n).trans (s.lanes n), s.step_placed h hs⟩

omit [Node M] in
theorem sound_init (g : FlowGraph M) (calls : List Call) : (init g calls).Sound g calls := by
  refine ⟨?_, ?_, fun i hi => (by cases hi), fun n => rfl, fun t ht n hn => ?_⟩
  · rw [pool_init]
    exact Pool.valid_init _ _
  · rw [pool_init]
    exact Pool.roots_init _ _
  · obtain ⟨k, hk⟩ := List.getElem?_of_mem ht
    simp only [init, List.getElem?_mapIdx, Option.map_eq_some_iff] at hk
    obtain ⟨call, -, rfl⟩ := hk
    cases hn

theorem sound_step {l : Label} (s : w.Sound g calls) (h : w.step l = some w') : w'.Sound g calls := by
  obtain ⟨t, ht, hs⟩ := step_iff.mp h
  exact s.step ht hs

theorem run_sound {ls : List Label} (h : Transition.run step (init g calls) ls = some w) :
    w.Sound g calls :=
  Transition.run_invariant (fun _ _ _ s hs => sound_step s hs) (sound_init g calls) h

omit [Node M] in
theorem Sound.root (s : w.Sound g calls) {c : CallId} (hc : c < calls.length) :
    ∃ t, w.tasks[c]? = some t ∧ t.parent = none := by
  obtain ⟨j, hj, hparent⟩ := (s.roots c).mpr hc
  obtain ⟨t, ht, rfl⟩ := pool_job_iff.mp hj
  exact ⟨t, ht, hparent⟩

omit [Node M] in
theorem Sound.lt_of_root (s : w.Sound g calls) (h : w.tasks[i]? = some t) (hparent : t.parent = none) :
    i < calls.length :=
  (s.roots i).mp ⟨t.job, pool_job h, hparent⟩

theorem Sound.root_stays (s : w.Sound g calls) (h : w.tasks[i]? = some t) {a : Action} (hs : Step w i t a w')
    {c : CallId} (hci : c ≠ i) {u : Task} (hu : w.tasks[c]? = some u) (hparent : u.parent = none) :
    ∃ u', w'.tasks[c]? = some u' ∧ u'.parent = none ∧ u'.pc = u.pc := by
  have hset : c ∉ t.pc.set := by
    intro hmem
    obtain ⟨jc, hjc, ⟨hchild, -⟩, -⟩ := s.pool.child (pool_job h) (c := c) (by rwa [Task.job, Pc.phase_children])
    obtain rfl : u.job = jc := Option.some.inj ((pool_job hu).symm.trans hjc)
    rw [Task.job, hparent] at hchild
    cases hchild
  obtain ⟨u', hu', hpc⟩ := step_frame hs hu hci (.inr hset)
  obtain ⟨r, hr, hroot⟩ := (s.step h hs).root (s.lt_of_root hu hparent)
  obtain rfl : r = u' := Option.some.inj (hr.symm.trans hu')
  exact ⟨r, hr, hroot, hpc⟩

theorem Sound.enters (s : w.Sound g calls) (h : w.tasks[i]? = some t) (hparent : t.parent = none)
    {entry : NodeId} {packet : Packet} {permits : Nat} (hpc : t.pc = .start entry packet permits) {a : Action}
    (hs : Step w i t a w') : a = .enter ∧ w' = w.enter i t entry packet permits := by
  cases hs with
  | enter hpc' =>
    obtain ⟨rfl, rfl, rfl⟩ := Pc.start.inj (hpc.symm.trans hpc')
    exact ⟨rfl, rfl⟩
  | acquire hpc' | admission hpc' | send hpc' | relock hpc' | recv hpc' | join hpc' | finish hpc' =>
    cases hpc.symm.trans hpc'
  | abort haborted =>
    obtain ⟨-, hkept, -⟩ := s.pool.root i t.job (pool_job h) hparent
    cases hkept.symm.trans haborted

end World
end Nyarix
