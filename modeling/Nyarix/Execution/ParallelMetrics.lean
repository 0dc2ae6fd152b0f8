import Mathlib.Data.Fintype.BigOperators
import Nyarix.Execution.Frame
import Nyarix.Execution.FlowCounts
import Nyarix.Execution.NodeCounts
import Nyarix.Graph.Stub

/-! Parallel execution with one metric registry attached to all of its calls. A call records its entry when it
is first polled and its exit when it returns; in between its branches record the module calls, each under the
graph lock, in whatever order they run. -/

namespace Nyarix
open Transition

attribute [ext] FlowCounts

section ReceiveMetered
variable {M : Type} [Node M]

def FlowGraph.receiveMetered (g : FlowGraph M) (metrics : Option MetricRegistry) (current : NodeId)
    (elapsed : Duration) : Option (FlowGraph M × Option MetricRegistry × BranchStep) :=
  match g.node current with
  | none => none
  | some node =>
    match node.queue.tryRecvPrioritized with
    | none => none
    | some (packet, queue) =>
      let r := { node with queue := queue }.processMetered metrics packet elapsed
      let g := g.modifyNode current fun _ => r.1
      some (g, r.2.1, g.branchStep current r.2.2)

theorem FlowGraph.receiveMetered_eq (g : FlowGraph M) (metrics : Option MetricRegistry) (current : NodeId)
    (elapsed : Duration) :
    (g.receiveMetered metrics current elapsed).map (fun r => (r.1, r.2.2)) = g.receive current elapsed := by
  unfold receiveMetered receive
  cases g.node current with
  | none => rfl
  | some node =>
    dsimp only
    rcases node.queue.tryRecvPrioritized with _ | ⟨packet, queue⟩
    · rfl
    · have hprocess := ({ node with queue := queue } : GraphNode M).processMetered_eq metrics packet elapsed
      rw [Prod.ext_iff] at hprocess
      dsimp only [Option.map_some] at hprocess ⊢
      rw [hprocess.1, hprocess.2]

end ReceiveMetered

namespace World
variable {M : Type} [Node M]

def served (w : World M) : Label → List (GraphNode M × Packet)
  | ⟨i, .recv _⟩ =>
    match w.tasks[i]?.map Task.pc with
    | some (.recv current) => w.graph.receives current
    | _ => []
  | _ => []

def recorded (w : World M) (metrics : Option MetricRegistry) : Label → Option MetricRegistry
  | ⟨i, .recv elapsed⟩ =>
    match w.tasks[i]?.map Task.pc with
    | some (.recv current) => ((w.graph.receiveMetered metrics current elapsed).map (·.2.1)).getD metrics
    | _ => metrics
  | _ => metrics

def reachedExit (w : World M) (c : CallId) : Option Bool :=
  match w.returned c with
  | some (.ok packets) => some (!packets.isEmpty)
  | some (.err _) => some false
  | some (.panicked _) | none => none

theorem recorded_cases (w : World M) (metrics : Option MetricRegistry) (l : Label) :
    w.served l = [] ∧ w.recorded metrics l = metrics ∨ ∃ node packet elapsed, w.served l = [(node, packet)] ∧
      w.recorded metrics l = (node.processMetered metrics packet elapsed).2.1 := by
  rcases l with ⟨i, action⟩
  cases action with
  | recv elapsed =>
    unfold served recorded
    dsimp only
    split
    · next current _ =>
      unfold FlowGraph.receives FlowGraph.receiveMetered
      cases w.graph.node current with
      | none => exact .inl ⟨rfl, rfl⟩
      | some node =>
        dsimp only
        rcases node.queue.tryRecvPrioritized with _ | ⟨packet, queue⟩
        · exact .inl ⟨rfl, rfl⟩
        · exact .inr ⟨{ node with queue := queue }, packet, elapsed, rfl, rfl⟩
    · exact .inl ⟨rfl, rfl⟩
  | enter | acquire | admission | send | relock | join | finish | abort => exact .inl ⟨rfl, rfl⟩

theorem flowCountsOf_recorded (w : World M) (metrics : Option MetricRegistry) (l : Label) :
    flowCountsOf (w.recorded metrics l) = flowCountsOf metrics := by
  rcases w.recorded_cases metrics l with ⟨-, hsame⟩ | ⟨node, packet, elapsed, -, hrecorded⟩
  · rw [hsame]
  · rw [hrecorded]
    exact node.flowCountsOf_processMetered metrics packet elapsed

theorem nodeCountsOf_recorded (name : String) (w : World M) (metrics : Option MetricRegistry) (l : Label) :
    nodeCountsOf name (w.recorded metrics l) = (w.served l).foldl (NodeCounts.tally name) (nodeCountsOf name metrics) := by
  rcases w.recorded_cases metrics l with ⟨hnone, hsame⟩ | ⟨node, packet, elapsed, hone, hrecorded⟩
  · rw [hnone, hsame]
    rfl
  · rw [hone, hrecorded]
    exact node.nodeCountsOf_processMetered name metrics packet elapsed

variable {g : FlowGraph M} {calls : List Call} {w w' : World M}

theorem Sound.returned_step (s : w.Sound g calls) {l : Label} (h : w.step l = some w') :
    w.returned l.task = none ∧ ∀ c < calls.length, c ≠ l.task → w'.returned c = w.returned c := by
  obtain ⟨t, ht, hs⟩ := step_iff.mp h
  constructor
  · obtain ⟨m, hm, -⟩ := step_pool ht hs
    have hlive := hm.live
    rw [Task.job, Pc.phase_live] at hlive
    exact returned_of_live ht hlive
  · intro c hc hne
    obtain ⟨u, hu, hparent⟩ := s.root hc
    obtain ⟨u', hu', hparent', hpc⟩ := s.root_stays ht hs hne hu hparent
    rw [returned_of_root hu hparent, returned_of_root hu' hparent', hpc]

end World

/-- The running calls with the registry that all of them record in, and those that were polled. -/
structure MeteredWorld (M : Type) where
  world : World M
  metrics : Option MetricRegistry
  begun : Finset CallId

inductive MeteredLabel where
  /-- the first poll of a call -/
  | entry (c : CallId)
  /-- a step of a branch, with the time since the entry in case its call returns -/
  | branch (l : Label) (latency : Duration)
  /-- somebody else records a metric -/
  | record (module name : String) (use : MetricUse)

namespace MeteredWorld
variable {M : Type}

def init (g : FlowGraph M) (calls : List Call) (metrics : Option MetricRegistry) : MeteredWorld M :=
  ⟨.init g calls, metrics, ∅⟩

def recordEntry (s : MeteredWorld M) (c : CallId) : Option (MeteredWorld M) :=
  match s.world.tasks[c]? with
  | some ⟨_, none, _, _, .start _ packet _⟩ =>
    if c ∈ s.begun then none
    else some { s with metrics := recordFlowEntry s.metrics packet.len, begun := insert c s.begun }
  | _ => none

variable [Node M]

def recordBranch (s : MeteredWorld M) (l : Label) (latency : Duration) : Option (MeteredWorld M) :=
  if (l.action matches .enter) ∧ l.task ∉ s.begun then none
  else (s.world.step l).map fun w =>
    let metrics := s.world.recorded s.metrics l
    { s with
      world := w
      metrics := match w.reachedExit l.task with
        | some reachedExit => recordFlowExit metrics latency reachedExit
        | none => metrics }

def step (s : MeteredWorld M) : MeteredLabel → Option (MeteredWorld M)
  | .entry c => s.recordEntry c
  | .branch l latency => s.recordBranch l latency
  | .record module name use => some { s with metrics := s.metrics.map (·.record module name use) }

def exits (s : MeteredWorld M) (reachedExit : Bool) : Finset CallId :=
  s.begun.filter fun c => s.world.reachedExit c = some reachedExit

structure Entered (n : Nat) (s : MeteredWorld M) : Prop where
  calls : ∀ c ∈ s.begun, c < n
  begun : ∀ (c : CallId) t, s.world.tasks[c]? = some t → t.parent = none → c ∉ s.begun →
    ∃ entry packet permits, t.pc = .start entry packet permits

variable {g : FlowGraph M} {calls : List Call} {metrics : Option MetricRegistry} {s s' : MeteredWorld M}

omit [Node M] in
theorem recordEntry_cases {c : CallId} (h : s.recordEntry c = some s') :
    ∃ t entry packet permits, s.world.tasks[c]? = some t ∧ t.parent = none ∧
      t.pc = .start entry packet permits ∧ c ∉ s.begun ∧ s' = { s with metrics := recordFlowEntry s.metrics packet.len, begun := insert c s.begun } := by
  unfold recordEntry at h
  split at h
  · next call permit aborted entry packet permits ht =>
    split_ifs at h with hc
    exact ⟨_, entry, packet, permits, ht, rfl, rfl, hc, (Option.some.inj h).symm⟩
  · cases h

theorem recordBranch_cases {l : Label} {latency : Duration} (h : s.recordBranch l latency = some s') :
    ∃ w, s.world.step l = some w ∧ (l.action = .enter → l.task ∈ s.begun) ∧ s' = { s with
      world := w
      metrics := match w.reachedExit l.task with
        | some reachedExit => recordFlowExit (s.world.recorded s.metrics l) latency reachedExit
        | none => s.world.recorded s.metrics l } := by
  unfold recordBranch at h
  split_ifs at h with hc
  obtain ⟨w, hw, rfl⟩ := Option.map_eq_some_iff.mp h
  refine ⟨w, hw, fun henter => ?_, rfl⟩
  by_contra hnot
  exact hc ⟨by rw [henter], hnot⟩

theorem sound_step {l : MeteredLabel} (hs : s.world.Sound g calls) (h : s.step l = some s') :
    s'.world.Sound g calls := by
  cases l with
  | entry c =>
    obtain ⟨_, _, _, _, _, _, _, _, rfl⟩ := recordEntry_cases h
    exact hs
  | branch l latency =>
    obtain ⟨w, hw, -, rfl⟩ := recordBranch_cases h
    exact World.sound_step hs hw
  | record =>
    obtain rfl := Option.some.inj h
    exact hs

omit [Node M] in
theorem entered_init (g : FlowGraph M) (calls : List Call) (metrics : Option MetricRegistry) :
    (init g calls metrics).Entered calls.length := by
  refine ⟨fun c hc => absurd hc (Finset.notMem_empty c), fun c t ht _ _ => ?_⟩
  obtain ⟨call, -, rfl⟩ := Option.map_eq_some_iff.mp ((List.getElem?_mapIdx ..).symm.trans ht)
  exact ⟨call.entry, call.packet, call.permits, rfl⟩

theorem entered_step {l : MeteredLabel} (hs : s.world.Sound g calls) (he : s.Entered calls.length)
    (h : s.step l = some s') : s'.Entered calls.length := by
  cases l with
  | entry c =>
    obtain ⟨t, entry, packet, permits, ht, hparent, -, -, rfl⟩ := recordEntry_cases h
    constructor
    · intro d hd
      rcases Finset.mem_insert.mp hd with rfl | hd
      · exact hs.lt_of_root ht hparent
      · exact he.calls d hd
    · intro d u hu hroot hd
      exact he.begun d u hu hroot fun hold => hd (Finset.mem_insert_of_mem hold)
  | branch l latency =>
    obtain ⟨w, hw, henter, rfl⟩ := recordBranch_cases h
    rcases l with ⟨i, action⟩
    refine ⟨he.calls, fun d u hu hroot hd => ?_⟩
    obtain ⟨t, ht, hstep⟩ := World.step_iff.mp hw
    have hlt : d < calls.length := (World.sound_step hs hw).lt_of_root hu hroot
    obtain ⟨r, hr, hparent⟩ := hs.root hlt
    obtain ⟨entry, packet, permits, hpc⟩ := he.begun d r hr hparent hd
    by_cases hdi : d = i
    · -- at its start a call can only enter, for which its entry must be recorded
      subst hdi
      obtain rfl : r = t := Option.some.inj (hr.symm.trans ht)
      exact absurd (henter (hs.enters ht hparent hpc hstep).1) hd
    · obtain ⟨u', hu', -, hsame⟩ := hs.root_stays ht hstep hdi hr hparent
      obtain rfl : u = u' := Option.some.inj (hu.symm.trans hu')
      exact ⟨entry, packet, permits, hsame.trans hpc⟩
  | record =>
    obtain rfl := Option.some.inj h
    exact ⟨he.calls, he.begun⟩

def tallied (s : MeteredWorld M) (c : FlowCounts) : FlowCounts where
  packetsTotal := c.packetsTotal + .ofNat s.begun.card
  latencyCount := c.latencyCount + (s.exits true).card
  packetsDropped := c.packetsDropped + .ofNat (s.exits false).card

theorem card_exits_branch (hs : s.world.Sound g calls) (he : s.Entered calls.length) {l : Label} {w : World M}
    (hw : s.world.step l = some w) (he' : Entered calls.length { s with world := w }) (reachedExit : Bool) :
    (exits { s with world := w } reachedExit).card =
      (s.exits reachedExit).card + if w.reachedExit l.task = some reachedExit then 1 else 0 := by
  obtain ⟨hbefore, hothers⟩ := hs.returned_step hw
  -- no other call returns in this step, and this one had not returned before
  have hsame : ∀ c ∈ s.begun, c ≠ l.task → w.reachedExit c = s.world.reachedExit c := by
    intro c hc hne
    unfold World.reachedExit
    rw [hothers c (he.calls c hc) hne]
  have hnew : l.task ∉ s.exits reachedExit := by
    intro hmem
    have hexit := (Finset.mem_filter.mp hmem).2
    unfold World.reachedExit at hexit
    rw [hbefore] at hexit
    cases hexit
  split_ifs with hexit
  · have hbegun : l.task ∈ s.begun := by
      by_contra hnot
      unfold World.reachedExit at hexit
      cases hreturned : w.returned l.task with
      | none =>
        rw [hreturned] at hexit
        cases hexit
      | some result =>
        obtain ⟨t, ht, hparent, hdone⟩ := World.returned_eq_some hreturned
        obtain ⟨entry, packet, permits, hpc⟩ := he'.begun l.task t ht hparent hnot
        cases hdone.symm.trans hpc
    -- the exits are what they were, and this call
    rw [← Finset.card_insert_of_notMem hnew]
    congr 1
    ext c
    rw [Finset.mem_insert]
    unfold exits
    rw [Finset.mem_filter, Finset.mem_filter]
    by_cases hc : c = l.task
    · subst hc
      exact iff_of_true ⟨hbegun, hexit⟩ (.inl rfl)
    · rw [or_iff_right hc]
      exact and_congr_right fun hmem => by rw [hsame c hmem hc]
  · rw [Nat.add_zero]
    congr 1
    refine Finset.filter_congr fun c hmem => ?_
    by_cases hc : c = l.task
    · subst hc
      refine iff_of_false hexit fun hold => hnew (Finset.mem_filter.mpr ⟨hmem, hold⟩)
    · rw [hsame c hmem hc]

theorem ofNat_succ (c : UInt64) (n : Nat) : c + .ofNat n + 1 = c + .ofNat (n + 1) := by
  rw [UInt64.ofNat_add, UInt64.add_assoc]
  rfl

def LeavesFlow : MeteredLabel → Prop
  | .record module name _ => Foreign module name
  | _ => True

theorem flowCountsOf_step {l : MeteredLabel} (hown : LeavesFlow l) (hs : s.world.Sound g calls)
    (he : s.Entered calls.length) (h : s.step l = some s') {c : Option FlowCounts}
    (hcounts : flowCountsOf s.metrics = c.map s.tallied) : flowCountsOf s'.metrics = c.map s'.tallied := by
  have he' := entered_step hs he h
  cases l with
  | entry d =>
    -- the call has not returned, so the exits are the same
    obtain ⟨t, entry, packet, permits, ht, hparent, hpc, hnew, rfl⟩ := recordEntry_cases h
    have hreturned : s.world.returned d = none := World.returned_of_live ht (by rw [hpc]; rfl)
    have hexits : ∀ reachedExit, exits { s with begun := insert d s.begun } reachedExit = s.exits reachedExit := by
      intro reachedExit
      refine Finset.filter_insert .. |>.trans (if_neg ?_)
      unfold World.reachedExit
      rw [hreturned]
      exact nofun
    rw [flowCountsOf_flowEntry, hcounts, Option.map_map]
    refine congrArg (Option.map · c) (funext fun c => ?_)
    have htotal := ofNat_succ c.packetsTotal s.begun.card
    rw [← Finset.card_insert_of_notMem hnew] at htotal
    have hlatency := congrArg (fun e => c.latencyCount + e.card) (hexits true)
    have hdropped := congrArg (fun e => c.packetsDropped + .ofNat e.card) (hexits false)
    exact FlowCounts.ext htotal hlatency.symm hdropped.symm
  | branch l latency =>
    obtain ⟨w, hw, -, rfl⟩ := recordBranch_cases h
    -- an exit is recorded in the step in which the call returns, and in no other
    have hcard := card_exits_branch hs he hw ⟨he'.calls, he'.begun⟩
    have hlatency := fun c : FlowCounts => congrArg (c.latencyCount + ·) (hcard true)
    have hdropped := fun c : FlowCounts => congrArg (fun n => c.packetsDropped + .ofNat n) (hcard false)
    have hrecorded := s.world.flowCountsOf_recorded s.metrics l
    cases hexit : w.reachedExit l.task with
    | none =>
      rw [hrecorded, hcounts]
      refine congrArg (Option.map · c) (funext fun c => ?_)
      rw [hexit] at hlatency hdropped
      exact FlowCounts.ext rfl (hlatency c).symm (hdropped c).symm
    | some reachedExit =>
      dsimp only
      rw [flowCountsOf_flowExit, hrecorded, hcounts, Option.map_map]
      refine congrArg (Option.map · c) (funext fun c => ?_)
      rw [hexit] at hlatency hdropped
      cases reachedExit with
      | true => exact FlowCounts.ext rfl (hlatency c).symm (hdropped c).symm
      | false => exact FlowCounts.ext rfl (hlatency c).symm ((ofNat_succ ..).trans (hdropped c).symm)
  | record module name use =>
    obtain rfl := Option.some.inj h
    refine Eq.trans ?_ hcounts
    cases s.metrics with
    | none => rfl
    | some r => exact congrArg some (r.flowCounts_record hown use)

theorem run_flowCounts {c : Option FlowCounts} (hstart : flowCountsOf metrics = c) {ls : List MeteredLabel}
    (hown : ∀ l ∈ ls, LeavesFlow l) (h : run step (init g calls metrics) ls = some s) :
    s.world.Sound g calls ∧ s.Entered calls.length ∧ flowCountsOf s.metrics = c.map s.tallied := by
  have hinit : flowCountsOf metrics = c.map (init g calls metrics).tallied := by
    have hzero : ∀ n : UInt64, n + .ofNat 0 = n := UInt64.add_zero
    rw [hstart]
    cases c with
    | none => rfl
    | some c => exact congrArg some (FlowCounts.ext (hzero _).symm rfl (hzero _).symm)
  have hstep : ∀ (s : MeteredWorld M) l s', s.world.Sound g calls ∧ s.Entered calls.length ∧
      flowCountsOf s.metrics = c.map s.tallied → LeavesFlow l → step s l = some s' →
      s'.world.Sound g calls ∧ s'.Entered calls.length ∧ flowCountsOf s'.metrics = c.map s'.tallied := by
    rintro s l s' ⟨hs, he, hc⟩ hl hstep
    exact ⟨sound_step hs hstep, entered_step hs he hstep, flowCountsOf_step hl hs he hstep hc⟩
  exact run_preserves hstep ⟨World.sound_init g calls, entered_init g calls metrics, hinit⟩
    (along_of_forall fun l hl _ => hown l hl) h

omit [Node M] in
theorem card_begun (s : MeteredWorld M) : s.begun.card = (s.exits true).card + (s.exits false).card +
    (s.begun.filter fun c => s.world.reachedExit c = none).card := by
  have hfibres := Finset.card_eq_sum_card_fiberwise (f := s.world.reachedExit) (s := s.begun)
    (t := Finset.univ) fun _ _ => Finset.mem_coe.mpr (Finset.mem_univ _)
  rw [Fintype.sum_option, Fintype.sum_bool, Nat.add_comm] at hfibres
  exact hfibres

/-- In every state that a run of calls reaches, the flow metrics count each call that has begun once, and each
that has returned once more; so they are balanced exactly if all that have begun have returned, which a call
that unwinds never does. -/
theorem parallel_flow_metrics {r₀ : MetricRegistry} {ls : List MeteredLabel} (hown : ∀ l ∈ ls, LeavesFlow l)
    (h : run step (init g calls (some r₀)) ls = some s) :
    ∃ r, s.metrics = some r ∧
      r.flowCounts.packetsTotal = r₀.flowCounts.packetsTotal + .ofNat s.begun.card ∧
      r.flowCounts.latencyCount = r₀.flowCounts.latencyCount + (s.exits true).card ∧
      r.flowCounts.packetsDropped = r₀.flowCounts.packetsDropped + .ofNat (s.exits false).card ∧
      (r₀.flowCounts.Balanced → r₀.flowCounts.packetsTotal.toNat + calls.length < 2 ^ 64 →
        (r.flowCounts.Balanced ↔ ∀ c ∈ s.begun, (s.world.reachedExit c).isSome)) := by
  obtain ⟨hs, he, hcounts⟩ := run_flowCounts rfl hown h
  obtain ⟨r, hr, htallied⟩ := Option.map_eq_some_iff.mp hcounts
  refine ⟨r, hr, ?_⟩
  rw [htallied]
  refine ⟨rfl, rfl, rfl, fun hbalanced hroom => ?_⟩
  have hparts := s.card_begun
  have hbound : s.begun.card ≤ calls.length := by
    rw [← Finset.card_range calls.length]
    exact Finset.card_le_card fun c hc => Finset.mem_range.mpr (he.calls c hc)
  have htoNat : ∀ (n : UInt64) (k : Nat), n.toNat + k < 2 ^ 64 → (n + .ofNat k).toNat = n.toNat + k := by
    intro n k hsum
    rw [UInt64.toNat_add, UInt64.toNat_ofNat_of_lt' (Nat.lt_of_le_of_lt (Nat.le_add_left ..) hsum), Nat.mod_eq_of_lt hsum]
  unfold FlowCounts.Balanced at hbalanced ⊢
  unfold tallied
  dsimp only
  rw [htoNat _ _ (by omega), htoNat _ _ (by omega)]
  have hzero : (∀ c ∈ s.begun, (s.world.reachedExit c).isSome) ↔
      (s.begun.filter fun c => s.world.reachedExit c = none).card = 0 := by
    rw [Finset.card_eq_zero, Finset.filter_eq_empty_iff]
    exact forall₂_congr fun c _ => Option.isSome_iff_ne_none
  rw [hzero]
  omega

def meteredSink : FlowGraph StubNode := (stubGraph [(.source, .passes)] []).markExitPoint ⟨0⟩

def meteredCalls : List Call := [⟨⟨0⟩, stubPacket 1, 1⟩, ⟨⟨0⟩, stubPacket 2, 1⟩]

def meteredRun : List MeteredLabel :=
  [.entry 0, .entry 1, .branch ⟨0, .enter⟩ 0, .branch ⟨1, .enter⟩ 0, .branch ⟨0, .admission 3⟩ 0,
    .branch ⟨1, .admission 4⟩ 0, .branch ⟨1, .send⟩ 0, .branch ⟨0, .send⟩ 0, .branch ⟨0, .relock⟩ 0,
    .branch ⟨0, .recv 0⟩ 5000]

theorem parallel_flow_metrics_sink : ∃ s r,
    run step (init meteredSink meteredCalls (some .new)) meteredRun = some s ∧ s.metrics = some r ∧
      r.flowCounts.packetsTotal = 2 ∧ r.flowCounts.latencyCount = 1 ∧ ¬ r.flowCounts.Balanced := by
  obtain ⟨s, hs, hbegun, hexits, hrunning⟩ : ∃ s,
      run step (init meteredSink meteredCalls (some .new)) meteredRun = some s ∧ s.begun.card = 2 ∧
        (s.exits true).card = 1 ∧ ¬ ∀ c ∈ s.begun, (s.world.reachedExit c).isSome :=
    ⟨_, rfl, rfl, rfl, by decide⟩
  have hown : ∀ l ∈ meteredRun, LeavesFlow l := by simp [meteredRun, LeavesFlow]
  obtain ⟨r, hr, htotal, hlatency, -, hbalanced⟩ := parallel_flow_metrics hown hs
  rw [hbegun] at htotal
  rw [hexits] at hlatency
  exact ⟨s, r, hs, hr, htotal, hlatency, fun h => hrunning ((hbalanced rfl (by decide)).mp h)⟩

def served (s : MeteredWorld M) : MeteredLabel → List (GraphNode M × Packet)
  | .branch l _ => s.world.served l
  | _ => []

def LeavesNode (name : String) : MeteredLabel → Prop
  | .record module metric _ => Elsewhere name module metric
  | _ => True

theorem nodeCountsOf_step {name : String} {l : MeteredLabel} (hown : LeavesNode name l) (h : s.step l = some s') :
    nodeCountsOf name s'.metrics = (s.served l).foldl (NodeCounts.tally name) (nodeCountsOf name s.metrics) := by
  cases l with
  | entry c =>
    obtain ⟨t, entry, packet, permits, -, -, -, -, rfl⟩ := recordEntry_cases h
    exact nodeCountsOf_flowEntry name s.metrics packet.len
  | branch l latency =>
    obtain ⟨w, hw, -, rfl⟩ := recordBranch_cases h
    refine Eq.trans ?_ (s.world.nodeCountsOf_recorded name s.metrics l)
    cases w.reachedExit l.task with
    | none => rfl
    | some reachedExit => exact nodeCountsOf_flowExit name _ latency reachedExit
  | record module metric use =>
    obtain rfl := Option.some.inj h
    exact nodeCountsOf_record hown use s.metrics

/-- However the branches of the calls take turns, the metrics under a name count the calls of its modules that
have returned, in the order in which the branches held the graph. -/
theorem parallel_node_metrics {name : String} {r₀ : MetricRegistry} {ls : List MeteredLabel}
    (hown : ∀ l ∈ ls, LeavesNode name l) (h : run step (init g calls (some r₀)) ls = some s) :
    let returned := (outputs step served (init g calls (some r₀)) ls).filter (countedUnder name)
    ∃ r, s.metrics = some r ∧
      (r.nodeCounts name).processCalls = (r₀.nodeCounts name).processCalls + .ofNat returned.length ∧
      (r.nodeCounts name).observations = (r₀.nodeCounts name).observations + returned.length ∧
      (r.nodeCounts name).errors = (r₀.nodeCounts name).errors + .ofNat (returned.countP failedCall) ∧
      (r.nodeCounts name).queueDepth = (returned.getLast?.map leftQueued).getD (r₀.nodeCounts name).queueDepth := by
  intro returned
  have hview := run_outputs (fun s : MeteredWorld M => nodeCountsOf name s.metrics)
    (fun _ _ _ hown hstep => nodeCountsOf_step hown hstep) (along_of_forall fun l hl _ => hown l hl) h
  rw [NodeCounts.foldl_tally] at hview
  obtain ⟨r, hr, hcounts⟩ := Option.map_eq_some_iff.mp hview
  dsimp only at hcounts
  refine ⟨r, hr, ?_⟩
  rw [NodeCounts.after_eq, List.countP_eq_length_filter] at hcounts
  rw [hcounts]
  exact ⟨rfl, rfl, rfl, rfl⟩

theorem parallel_node_metrics_sink : ∃ s r,
    run step (init meteredSink meteredCalls (some .new)) meteredRun = some s ∧ s.metrics = some r ∧
      (r.nodeCounts "stub").processCalls = 1 ∧ (r.nodeCounts "stub").queueDepth = 1 := by
  have hown : ∀ l ∈ meteredRun, LeavesNode "stub" l := by simp [meteredRun, LeavesNode]
  have hrun : ∃ s, run step (init meteredSink meteredCalls (some .new)) meteredRun = some s := ⟨_, rfl⟩
  obtain ⟨s, hs⟩ := hrun
  obtain ⟨r, hr, hcalls, -, -, hdepth⟩ := parallel_node_metrics hown hs
  exact ⟨s, r, hs, hr, hcalls.trans rfl, hdepth.trans rfl⟩

end MeteredWorld
end Nyarix
