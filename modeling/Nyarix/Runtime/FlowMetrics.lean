import Nyarix.Execution.FlowCounts
import Nyarix.Graph.Integrity
import Nyarix.Runtime.Host

/-! The execution loop with a metric registry attached. The loop catches the panic of a module outside
`execute_sequential`, which then has counted a packet in and not out. -/

namespace Nyarix
open Transition

structure MeteredGraph (M : Type) where
  graph : FlowGraph M
  metrics : Option MetricRegistry

/-- What others do: they edit the graph, or record a metric of a module. -/
inductive MeteredEdit (M : Type) where
  | call (c : GraphCall M)
  | record (module name : String) (use : MetricUse)

namespace MeteredGraph
variable {M : Type} [Node M]

def onGraph (f : Host M → Host M × Unwind (Except ModuleError Unit)) (h : MeteredGraph M) :
    MeteredGraph M × Unwind (Except ModuleError Unit) :=
  let r := f ⟨h.graph, []⟩
  ({ h with graph := r.1.graph }, r.2)

def execute (entry : NodeId) (readings : List Reading × Duration) (h : MeteredGraph M) (packet : Packet) :
    MeteredGraph M × Option Outcome :=
  let r := h.graph.executeSequentialMetered entry packet h.metrics readings.1 readings.2
  (⟨r.1, r.2.1⟩, r.2.2)

def edit : MeteredEdit M → MeteredGraph M → MeteredGraph M
  | .call c, h => { h with graph := h.graph.edit c }
  | .record module name use, h => { h with metrics := h.metrics.map (·.record module name use) }

def engine (entry : NodeId) : Engine (MeteredGraph M) (List Reading × Duration) (MeteredEdit M) where
  initializeAllNodes := onGraph Host.initializeAllNodes
  execute := execute entry
  shutdownAllNodes := onGraph Host.shutdownAllNodes
  edit := edit
  needsLock
    | .call _ => true
    | .record .. => false

end MeteredGraph

namespace FlowCounts

def after (c : FlowCounts) (executed : List (Packet × Outcome)) : FlowCounts :=
  executed.foldl (fun c e => c.account (some e.2)) c

/-- So many packets have entered and neither reached an exit nor been dropped. -/
def Misses (c : FlowCounts) (k : Nat) : Prop := c.packetsTotal.toNat = c.latencyCount + c.packetsDropped.toNat + k

theorem misses_zero {c : FlowCounts} : c.Misses 0 ↔ c.Balanced := Iff.rfl

theorem toNat_succ {a : UInt64} (h : a.toNat + 1 < 2 ^ 64) : (a + 1).toNat = a.toNat + 1 := by
  rw [UInt64.toNat_add]
  exact Nat.mod_eq_of_lt h

theorem account_packetsTotal (c : FlowCounts) (outcome : Option Outcome) :
    (c.account outcome).packetsTotal = c.packetsTotal + 1 := by
  rcases outcome with _ | result | _
  · rfl
  · exact exited_packetsTotal _ _
  · rfl

theorem Misses.account {c : FlowCounts} {k : Nat} (h : c.Misses k) (hbound : c.packetsTotal.toNat + 1 < 2 ^ 64)
    (outcome : Outcome) : (c.account (some outcome)).Misses (k + outcome.unwound.toNat) := by
  have htotal : (c.packetsTotal + 1).toNat = c.packetsTotal.toNat + 1 := toNat_succ hbound
  unfold Misses at h ⊢
  rw [account_packetsTotal, htotal]
  cases outcome with
  | returned result =>
    have hdropped : (c.packetsDropped + 1).toNat = c.packetsDropped.toNat + 1 := toNat_succ (by omega)
    dsimp only [FlowCounts.account]
    cases (Outcome.output (.returned result)).isSome
    · change _ = c.latencyCount + (c.packetsDropped + 1).toNat + k
      omega
    · change _ = c.latencyCount + 1 + c.packetsDropped.toNat + k
      omega
  | panicked reason =>
    change _ = c.latencyCount + c.packetsDropped.toNat + (k + 1)
    omega

theorem Misses.after {c : FlowCounts} {k : Nat} (h : c.Misses k) {executed : List (Packet × Outcome)}
    (hbound : c.packetsTotal.toNat + executed.length < 2 ^ 64) :
    (c.after executed).Misses (k + executed.countP (·.2.unwound)) := by
  induction executed generalizing c k with
  | nil => exact h
  | cons e executed ih =>
    rw [List.length_cons] at hbound
    have hone : c.packetsTotal.toNat + 1 < 2 ^ 64 := by omega
    have hrest := ih (h.account hone e.2) (by rw [account_packetsTotal, toNat_succ hone]; omega)
    have hcount : k + e.2.unwound.toNat + executed.countP (·.2.unwound) = k + (e :: executed).countP (·.2.unwound) := by
      rw [List.countP_cons]
      cases e.2.unwound with
      | false => rfl
      | true => exact Nat.succ_add_eq_add_succ k _
    rw [hcount] at hrest
    exact hrest

theorem balanced_after_iff {c : FlowCounts} (h : c.Balanced) {executed : List (Packet × Outcome)}
    (hbound : c.packetsTotal.toNat + executed.length < 2 ^ 64) :
    (c.after executed).Balanced ↔ executed.countP (·.2.unwound) = 0 := by
  have hmisses := (misses_zero.mpr h).after hbound
  unfold Misses at hmisses
  unfold Balanced
  omega

end FlowCounts

def Phase.walking : Phase → Bool
  | .running .. => true
  | _ => false

theorem Stage.walking_next (stage : Stage) : stage.next.walking = false := by cases stage <;> rfl

theorem Stage.walking_stop (stage : Stage) : stage.stop.walking = false := by cases stage <;> rfl

theorem Stage.walking_after (stage : Stage) (outcome : Outcome) : (stage.after outcome).walking = false := by
  unfold after
  cases outcome.output with
  | none => exact walking_next stage
  | some => rfl

namespace RunState
variable {M : Type} [Node M] {entry : NodeId} {c : FlowCounts} {s s' : RunState (MeteredGraph M)}
  {l : LoopLabel (List Reading × Duration) (MeteredEdit M)}

/-- The registry counts the executed packets, and the one whose walk has begun. -/
def Counted (c : FlowCounts) (s : RunState (MeteredGraph M)) : Prop :=
  flowCountsOf s.graph.metrics = some (if s.phase.walking then (c.after s.executed).entered else c.after s.executed)

def NamesOwn : LoopLabel (List Reading × Duration) (MeteredEdit M) → Prop
  | .outside (.edit (.record module _ _)) => module ≠ flowMetricsScope
  | _ => True

/-- If a packet is executed, no module panics on what it is called with. -/
def Quiet (entry : NodeId) (s : RunState (MeteredGraph M)) :
    LoopLabel (List Reading × Duration) (MeteredEdit M) → Prop
  | .own (.execute readings) => ∀ stage packet, s.phase = .lock stage packet →
    ∀ served ∈ s.graph.graph.sequentialServes entry packet readings.1,
      (served.1.process served.2).2.unwound = false
  | _ => True

omit [Node M] in
theorem Counted.of_eq (h : s.Counted c) (hmetrics : s'.graph.metrics = s.graph.metrics)
    (hexecuted : s'.executed = s.executed) (hphase : s'.phase.walking = s.phase.walking) : s'.Counted c := by
  unfold Counted at h ⊢
  rw [hmetrics, hexecuted, hphase]
  exact h

theorem execute_eq {h h' : MeteredGraph M} {readings : List Reading × Duration} {packet : Packet}
    {outcome : Option Outcome} (he : (MeteredGraph.engine entry).execute readings h packet = (h', outcome)) :
    outcome = (h.graph.executeSequential entry packet readings.1).outcome ∧
      flowCountsOf h'.metrics = (flowCountsOf h.metrics).map (·.account outcome) := by
  have hsame := h.graph.executeSequentialMetered_eq entry packet h.metrics readings.1 readings.2
  have hcounts := h.graph.flowCountsOf_executeSequentialMetered entry packet h.metrics readings.1 readings.2
  rw [← (Prod.mk.inj hsame).2] at hcounts ⊢
  obtain ⟨rfl, rfl⟩ := Prod.mk.inj he
  exact ⟨rfl, hcounts⟩

theorem Counted.disturbed (h : s.Counted c) {a : Outside (MeteredEdit M)} (hown : NamesOwn (.outside a))
    (hd : s.disturb (MeteredGraph.engine entry) a = some s') : s'.Counted c := by
  have hundisturbed := undisturbed hd
  rcases disturb_graph hd with ⟨x, rfl, rfl⟩ | hgraph
  · cases x with
    | call => exact h.of_eq rfl rfl rfl
    | record module name use =>
      have hforeign : Foreign module name := fun hflow => hown hflow.1
      unfold Counted at h ⊢
      rw [← h]
      change flowCountsOf (s.graph.metrics.map (·.record module name use)) = flowCountsOf s.graph.metrics
      unfold flowCountsOf
      rw [Option.map_map]
      exact congrArg (Option.map · s.graph.metrics) (funext fun r => r.flowCounts_record hforeign use)
  · exact h.of_eq (congrArg MeteredGraph.metrics hgraph) hundisturbed.executed
      (congrArg Phase.walking hundisturbed.phase)

theorem Counted.step (h : s.Counted c) (hown : NamesOwn l) (hs : Step (MeteredGraph.engine entry) s l s') :
    s'.Counted c := by
  cases hs with
  | initialized hp hm hi =>
    have hmetrics := congrArg (fun r => r.1.metrics) hi
    exact h.of_eq hmetrics.symm rfl (by rw [hp]; rfl)
  | failed hp hm hi =>
    have hmetrics := congrArg (fun r => r.1.metrics) hi
    exact h.of_eq hmetrics.symm rfl (by rw [hp]; rfl)
  | shutDown hp hm hi =>
    have hmetrics := congrArg (fun r => r.1.metrics) hi
    exact h.of_eq hmetrics.symm rfl (by rw [hp]; rfl)
  | resumed hp | stopped hp | paused hp | received hp | closed hp | drained hp | emptied hp | expiredShutdown hp =>
    exact h.of_eq rfl rfl (by rw [hp]; rfl)
  | delivered hp => exact h.of_eq rfl rfl (by rw [hp]; exact Stage.walking_next _)
  | refused hp => exact h.of_eq rfl rfl (by rw [hp]; exact Stage.walking_stop _)
  | expiredDrain hp =>
    refine h.of_eq rfl rfl ?_
    rcases hp with ⟨packet, hp⟩ | ⟨output, hp⟩ <;> (rw [hp]; rfl)
  | unfinished hp hm he =>
    unfold Counted at h ⊢
    rw [(execute_eq he).2, h, hp]
    rfl
  | @executed stage packet readings graph outcome hp hm he =>
    unfold Counted at h ⊢
    dsimp only
    rw [(execute_eq he).2, h, hp, Stage.walking_after, FlowCounts.after, FlowCounts.after, List.foldl_append]
    rfl
  | outside hd => exact h.disturbed hown hd

def unwound (s : RunState (MeteredGraph M)) : Nat := s.executed.countP (·.2.unwound)

theorem unwound_step (hs : Step (MeteredGraph.engine entry) s l s') :
    s'.unwound = 0 ↔ s.unwound = 0 ∧ s.Quiet entry l := by
  have hquiet : ∀ {stage packet readings}, s.phase = .lock stage packet →
      (s.Quiet entry (.own (.execute readings)) ↔ ¬ ∃ outcome,
        (s.graph.graph.executeSequential entry packet readings.1).outcome = some outcome ∧ outcome.unwound) := by
    intro stage packet readings hp
    rw [FlowGraph.executeSequential_unwound]
    constructor
    · rintro hall ⟨served, hserved, hpanics⟩
      rw [hall stage packet hp served hserved] at hpanics
      cases hpanics
    · intro hnone stage' packet' hp' served hserved
      rw [hp] at hp'
      cases hp'
      exact Bool.not_eq_true _ ▸ fun hpanics => hnone ⟨served, hserved, hpanics⟩
  cases hs with
  | initialized | failed | resumed | stopped | paused | received | closed | delivered | refused | drained | emptied
  | shutDown | expiredDrain | expiredShutdown => exact (and_iff_left trivial).symm
  | outside hd =>
    rw [unwound, (undisturbed hd).executed]
    exact (and_iff_left trivial).symm
  | unfinished hp hm he =>
    rw [hquiet hp, ← (execute_eq he).1]
    refine (and_iff_left ?_).symm
    rintro ⟨outcome, hnone, -⟩
    cases hnone
  | @executed stage packet readings graph outcome hp hm he =>
    rw [hquiet hp, ← (execute_eq he).1, unwound, List.countP_append, Nat.add_eq_zero_iff]
    simp [unwound]

theorem unwound_run {ls : List (LoopLabel (List Reading × Duration) (MeteredEdit M))}
    (h : run (step (MeteredGraph.engine entry)) s ls = some s') :
    s'.unwound = 0 ↔ s.unwound = 0 ∧ Along (step (MeteredGraph.engine entry)) (Quiet entry) s ls := by
  induction ls generalizing s with
  | nil =>
    rw [run_nil, Option.some.injEq] at h
    rw [h]
    exact (and_iff_left trivial).symm
  | cons l ls ih =>
    obtain ⟨t, ht, hrest⟩ := run_cons.mp h
    rw [ih hrest, unwound_step (step_cases ht), and_assoc]
    refine and_congr_right fun _ => and_congr_right fun _ => ?_
    exact ⟨fun halong _ hu => Option.some.inj (ht.symm.trans hu) ▸ halong, fun halong => halong t ht⟩

/-- In every state that a run of the loop reaches, but for one in the midst of a walk, every packet that
has entered the flow has reached an exit or been dropped, if and only if no module has panicked. -/
theorem flow_metrics_balanced_iff {g : MeteredGraph M} {r₀ : MetricRegistry} (hattached : g.metrics = some r₀)
    (hinit : r₀.flowCounts.Balanced) {source sink : Channel Packet} {pause : GraphPause}
    {ls : List (LoopLabel (List Reading × Duration) (MeteredEdit M))} (hnames : ∀ l ∈ ls, NamesOwn l)
    (h : run (step (MeteredGraph.engine entry)) (init g source sink pause) ls = some s)
    (hbound : r₀.flowCounts.packetsTotal.toNat + s.executed.length < 2 ^ 64) (hbetween : s.phase.walking = false) :
    (∃ r, s.graph.metrics = some r ∧ r.flowCounts.Balanced) ↔
      Along (step (MeteredGraph.engine entry)) (Quiet entry) (init g source sink pause) ls := by
  have hstart : (init g source sink pause).Counted r₀.flowCounts := by
    unfold Counted init
    dsimp only
    rw [hattached]
    rfl
  have hcounted : s.Counted r₀.flowCounts :=
    run_preserves (fun _ _ _ hs hown hstep => hs.step hown (step_cases hstep)) hstart
      (along_of_forall fun l hl _ => hnames l hl) h
  unfold Counted at hcounted
  rw [hbetween, if_neg Bool.false_ne_true] at hcounted
  obtain ⟨r, hr, hcounts⟩ := Option.map_eq_some_iff.mp hcounted
  have hbalance : (∃ r, s.graph.metrics = some r ∧ r.flowCounts.Balanced) ↔ s.unwound = 0 := by
    rw [hr]
    simp only [Option.some.injEq, exists_eq_left', hcounts]
    exact FlowCounts.balanced_after_iff hinit hbound
  rw [hbalance, unwound_run h]
  exact and_iff_right rfl

end RunState

/-- A module that panics on an empty payload and passes every other packet. -/
structure Fragile where
  deriving DecidableEq

instance : Node Fragile where
  metadata _ := ⟨"fragile", .unbounded⟩
  nodeType _ := .source
  initializeModule m := (m, .returned (.ok ()))
  process m packet := (m, if packet.payload = [] then .panicked "no first byte" else .returned (.ok (some packet)))
  shutdown m := (m, .returned (.ok ()))
  migrate m := (m, .returned (.ok ()))

def fragileGraph : MeteredGraph Fragile where
  graph := (FlowGraph.new.addNode (.new ⟨0⟩ ⟨0, 1, ⟨⟩⟩ .default)).markExitPoint ⟨0⟩
  metrics := some .new

def fragileState : RunState (MeteredGraph Fragile) := .init fragileGraph relaySink relaySink (.new false)

def fragileRun (payload : List UInt8) : List (LoopLabel (List Reading × Duration) (MeteredEdit Fragile)) :=
  [.outside (.send (bytes payload)), .own .poll, .own .poll, .own .poll, .own (.execute ([⟨0, 0⟩], 5000))]

theorem new_flowCounts : MetricRegistry.new.flowCounts = ⟨0, 0, 0⟩ := rfl

theorem fragileRun_namesOwn (payload : List UInt8) : ∀ l ∈ fragileRun payload, RunState.NamesOwn l := by
  simp [fragileRun, RunState.NamesOwn]

theorem RunState.flow_metrics_balanced_iff_byte : ∃ s,
    run (step (MeteredGraph.engine ⟨0⟩)) fragileState (fragileRun [1]) = some s ∧
      ((∃ r, s.graph.metrics = some r ∧ r.flowCounts.Balanced) ↔
        Along (step (MeteredGraph.engine ⟨0⟩)) (Quiet ⟨0⟩) fragileState (fragileRun [1])) := by
  have hrun : ∃ s, run (step (MeteredGraph.engine ⟨0⟩)) fragileState (fragileRun [1]) = some s ∧
      s.executed.length = 1 ∧ s.phase.walking = false := ⟨_, rfl, rfl, rfl⟩
  obtain ⟨s, hs, hlength, hwalking⟩ := hrun
  have hbound : MetricRegistry.new.flowCounts.packetsTotal.toNat + s.executed.length < 2 ^ 64 := by
    rw [new_flowCounts, hlength]
    decide
  have hinit : MetricRegistry.new.flowCounts.Balanced := rfl
  exact ⟨s, hs, flow_metrics_balanced_iff rfl hinit (fragileRun_namesOwn [1]) hs hbound hwalking⟩

theorem panic_unbalances : ∃ s r, run (RunState.step (MeteredGraph.engine ⟨0⟩)) fragileState (fragileRun []) = some s ∧
    s.phase = .head ∧ s.graph.metrics = some r ∧ r.flowCounts = ⟨1, 0, 0⟩ ∧ ¬ r.flowCounts.Balanced := by
  have hcounts : ∀ r : MetricRegistry, r.flowCounts = ⟨1, 0, 0⟩ → ¬ r.flowCounts.Balanced := by
    intro r hr hbalanced
    rw [hr] at hbalanced
    revert hbalanced
    decide
  exact ⟨_, _, rfl, rfl, rfl, rfl, hcounts _ rfl⟩

end Nyarix
