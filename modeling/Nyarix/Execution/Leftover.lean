import Nyarix.Execution.InFlight
import Nyarix.Graph.Stub

/-! What an `execute_parallel` call leaves in the node queues. A branch aborted between its
send and its receive leaves a packet behind, and nothing else does. -/

namespace Nyarix
open Transition

namespace World
variable {M : Type} [Node M]

/-- No branch is aborted between its send and its receive. -/
def AbortsEmptyHanded (w : World M) (l : Label) : Prop :=
  l.action = .abort → ∀ t, w.tasks[l.task]? = some t → ∀ n, t.pc ≠ .relock n ∧ t.pc ≠ .recv n

variable {g : FlowGraph M} {calls : List Call} {w w' : World M}

def Littered (w : World M) : Prop := ∃ n, w.inFlight n < w.graph.queued n

omit [Node M] in
theorem leaves_eq_zero {l : Label} (hl : w.AbortsEmptyHanded l) {t : Task} (ht : w.tasks[l.task]? = some t)
    (n : NodeId) : t.leaves n l.action = 0 := by
  unfold Task.leaves
  split
  · rename_i ha
    have := hl ha t ht
    cases hp : t.pc <;> simp_all [Pc.awaits]
  · rfl

theorem littered_step {l : Label} (s : w.Sound g calls) (hw : w.Littered) (h : w.step l = some w') :
    w'.Littered := by
  obtain ⟨t, ht, hs⟩ := step_iff.mp h
  obtain ⟨n, hn⟩ := hw
  have := balance s ht hs n
  exact ⟨n, by omega⟩

theorem littered_of_abort {l : Label} (s : w.Sound g calls) (hle : w.Backed) (hl : ¬ w.AbortsEmptyHanded l)
    (h : w.step l = some w') : w'.Littered := by
  obtain ⟨t, ht, hs⟩ := step_iff.mp h
  unfold AbortsEmptyHanded at hl
  push Not at hl
  obtain ⟨ha, u, hu, n, hpc⟩ := hl
  obtain rfl : t = u := Option.some.inj (ht.symm.trans hu)
  refine ⟨n, ?_⟩
  have hbal := balance s ht hs n
  have hleaves : t.leaves n l.action = 1 := by
    rw [ha, Task.leaves]
    by_cases hr : t.pc = .relock n
    · rw [hr, Pc.awaits, if_pos rfl]
    · rw [hpc hr, Pc.awaits, if_pos rfl]
  have := hle n
  omega

/-- When all branches have ended, the queues are empty exactly if no branch was aborted between
its send and its receive. -/
theorem execute_parallel_queues_empty_iff {ls : List Label} (hq : g.QueuesEmpty)
    (h : run step (init g calls) ls = some w) (hset : w.Settled) :
    w.graph.QueuesEmpty ↔ Along step AbortsEmptyHanded (init g calls) ls := by
  constructor
  · intro hempty
    by_contra hviol
    obtain ⟨ls₁, l, ls₂, u, v, -, hu, hl, hv, hw⟩ := exists_violation h hviol
    have hsound := run_sound hu
    have hlit : v.Sound g calls ∧ v.Littered :=
      ⟨sound_step hsound hv, littered_of_abort hsound (run_backed hu) hl hv⟩
    obtain ⟨-, n, hn⟩ := run_invariant (P := fun w => w.Sound g calls ∧ w.Littered)
      (fun _ _ _ hs hstep => ⟨sound_step hs.1 hstep, littered_step hs.1 hs.2 hstep⟩) hlit hw
    rw [FlowGraph.queuesEmpty_iff.mp hempty n] at hn
    exact Nat.not_lt_zero _ hn
  · intro hsafe
    have hm := run_preserves (P := fun w : World M => w.Sound g calls ∧ w.Matched)
      (fun w l w' ⟨s, hw⟩ hl hstep => by
        obtain ⟨t, ht, hs⟩ := step_iff.mp hstep
        exact ⟨s.step ht hs, matched_step s hw ht hs (leaves_eq_zero hl ht)⟩)
      ⟨sound_init g calls, matched_init hq⟩ hsafe h
    refine FlowGraph.queuesEmpty_iff.mpr fun n => ?_
    rw [hm.2 n, hset.inFlight]

def failingFork : FlowGraph StubNode :=
  stubGraph [(.source, .passes), (.transformer, .fails), (.sink, .passes)]
    [(0, 1, .parallel), (0, 2, .parallel)]

def failingForkCall : Call := ⟨⟨0⟩, stubPacket 7, 2⟩

/-- The second branch has queued its packet when the first one fails and is joined. -/
def failingForkRun : List Label :=
  [⟨0, .enter⟩, ⟨0, .admission 0⟩, ⟨0, .send⟩, ⟨0, .relock⟩, ⟨0, .recv 0⟩,
    ⟨2, .acquire⟩, ⟨2, .admission 0⟩, ⟨2, .send⟩,
    ⟨1, .acquire⟩, ⟨1, .admission 0⟩, ⟨1, .send⟩, ⟨1, .relock⟩, ⟨1, .recv 0⟩,
    ⟨0, .join 1 ""⟩, ⟨2, .abort⟩]

theorem execute_parallel_queues_empty_iff_failingFork :
    ∃ w, run step (init failingFork [failingForkCall]) failingForkRun = some w ∧
      (w.graph.QueuesEmpty ↔ Along step AbortsEmptyHanded (init failingFork [failingForkCall]) failingForkRun) :=
  ⟨_, rfl, execute_parallel_queues_empty_iff (FlowGraph.queuesEmpty_of_entries (by decide)) rfl (by
    unfold Settled
    decide)⟩

theorem failingFork_leaves_packet : failingFork.QueuesEmpty ∧
    ∃ w, run step (init failingFork [failingForkCall]) failingForkRun = some w ∧ w.Settled ∧
      (∃ e, w.returned 0 = some (.err e)) ∧ ¬ w.graph.QueuesEmpty := by
  refine ⟨FlowGraph.queuesEmpty_of_entries (by decide), _, rfl, ?_, ⟨_, rfl⟩, fun h => ?_⟩
  · unfold Settled
    decide
  · have := h ⟨2⟩ _ rfl
    cases this

end World
end Nyarix
