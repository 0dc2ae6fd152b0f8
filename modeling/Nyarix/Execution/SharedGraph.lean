import Nyarix.Execution.LiveEdit
import Nyarix.Execution.Sequential

/-! Both engines and every edit on one graph behind its mutex. `execute_sequential` borrows the graph
for its whole walk, so it runs under the lock like an edit; a branch of `execute_parallel` holds the
lock only between its await points, and its packet may come to a queue that an edit has replaced. -/

namespace Nyarix
open Transition

inductive Borrow (M : Type) where
  | executeSequential (entry : NodeId) (packet : Packet) (readings : List Reading)
  | connect (edge : Edge)
  | disconnect (fromNode toNode : NodeId)
  | insertAfter (afterId : NodeId) (newNode : GraphNode M)

/-- What the tasks that share the graph can do next: a branch of `execute_parallel` goes on, an edit
takes nodes out or puts them in, or another call borrows the graph. -/
inductive SharedCall (M : Type) where
  | live (l : LiveLabel M)
  | borrow (b : Borrow M)

def SharedCall.GivesEmpty {M : Type} : SharedCall M → Prop
  | .live (.edit (.addNode node)) | .borrow (.insertAfter _ node) => node.queue.packets = []
  | _ => True

namespace FlowGraph
variable {M : Type}

/-- `insert_after` has stored its node, whatever it returns after that. -/
def Inserts (g : FlowGraph M) (afterId : NodeId) : Prop := afterId ∈ g.nodes ∧ (g.edgesFrom afterId).length ≤ 1

instance (g : FlowGraph M) (afterId : NodeId) : Decidable (g.Inserts afterId) :=
  inferInstanceAs (Decidable (_ ∧ _))

theorem insertAfter_nodes_of_inserts {g : FlowGraph M} {afterId : NodeId} (h : g.Inserts afterId)
    (newNode : GraphNode M) : (g.insertAfter afterId newNode).1.nodes = g.nodes.insert newNode.id newNode := by
  obtain ⟨hafter, hout⟩ := h
  rw [insertAfter, if_neg (not_not.mpr hafter)]
  split
  · rw [connect_nodes, addNode_nodes]
  · dsimp only
    split
    · next g' hg' =>
      have hnodes := congrArg (fun r => r.1.nodes) hg'
      dsimp only at hnodes
      rw [connect_nodes] at hnodes
      rw [connect_nodes, ← hnodes, addNode_nodes]
    · rw [connect_nodes, addNode_nodes]
  · next hnil hone =>
    rcases length_le_one_cases hout with hlen | ⟨old, hold⟩
    · exact absurd hlen hnil
    · exact absurd hold (hone old)

end FlowGraph

namespace LiveWorld
variable {M : Type} [Node M]

def borrow (v : LiveWorld M) : Borrow M → LiveWorld M
  | .executeSequential entry packet readings =>
    v.withGraph (v.world.graph.executeSequential entry packet readings).graph
  | .connect edge => v.withGraph (v.world.graph.connect edge).1
  | .disconnect fromNode toNode => v.withGraph (v.world.graph.disconnect fromNode toNode).1
  | .insertAfter afterId newNode =>
    let v' := v.withGraph (v.world.graph.insertAfter afterId newNode).1
    if v.world.graph.Inserts afterId then v'.putFresh newNode.id else v'

def call (v : LiveWorld M) : SharedCall M → Option (LiveWorld M)
  | .live l => v.step l
  | .borrow b => if v.world.mutex = none then some (v.borrow b) else none

inductive Walked (v : LiveWorld M) (i : TaskId) (t : Task) (a : Action) : LiveWorld M → Prop
  | stepped {w} (hs : World.Step v.world i t a w) (hadmission : ∀ now, a ≠ .admission now)
      (hsend : ∀ current packet, a = .send → t.pc = .send current packet → v.installed current = v.senders i) :
    Walked v i t a { v with world := w }
  | admitted {w current packet now} (ha : a = .admission now) (hpc : t.pc = .lock current packet)
      (hs : World.Step v.world i t a w) :
    Walked v i t a { v with world := w, senders := Function.update v.senders i (v.installed current) }
  | keptSent {index k current packet queue} (hpc : t.pc = .send current packet) (hk : v.kept[index]? = some k)
      (hqueue : k.queue = v.senders i) (hsend : k.node.queue.trySend packet = some queue) :
    Walked v i t a { v with
      world := v.world.move i t (.relock current)
      kept := v.kept.set index { k with node := { k.node with queue := queue } } }
  | closed {r} : Walked v i t a { v with world := v.world.finish i t r }

theorem step_of_map {v v' : LiveWorld M} {l : Label} {t : Task} {f : World M → LiveWorld M}
    (ht : v.world.tasks[l.task]? = some t) (h : (v.world.step l).map f = some v') :
    ∃ w, World.Step v.world l.task t l.action w ∧ v' = f w := by
  obtain ⟨w, hw, rfl⟩ := Option.map_eq_some_iff.mp h
  obtain ⟨t', ht', hs⟩ := World.step_iff.mp hw
  rw [Option.some.inj (ht.symm.trans ht')]
  exact ⟨w, hs, rfl⟩

theorem walked_of_walk {v v' : LiveWorld M} {l : Label} (h : v.walk l = some v') :
    ∃ t, v.world.tasks[l.task]? = some t ∧ Walked v l.task t l.action v' := by
  unfold walk at h
  split at h
  · cases h
  next t ht =>
  refine ⟨t, ht, ?_⟩
  split at h
  -- the send goes to the node in the graph, to one that is kept aside, or to nobody
  · next current packet haction hpc =>
    unfold send sendTarget at h
    split at h
    · next htarget =>
      split_ifs at htarget with hinstalled
      · obtain ⟨w, hw, rfl⟩ := Option.map_eq_some_iff.mp h
        rw [haction]
        refine .stepped (.send hpc hw) (fun now hnow => by cases hnow) fun current' packet' _ hpc' => ?_
        rw [hpc] at hpc'
        cases hpc'
        exact hinstalled.2
      · split at htarget <;> cases htarget
    · next index htarget =>
      split_ifs at htarget with hinstalled
      split at htarget
      · next k hfound =>
        cases htarget
        obtain ⟨hlt, hqueue, -⟩ := List.findIdx?_eq_some_iff_getElem.mp hfound
        split at h
        · cases h
        · next kept hkept =>
          obtain ⟨queue, hsend, rfl⟩ := Option.map_eq_some_iff.mp h
          rw [List.getElem?_eq_getElem hlt, Option.some.injEq] at hkept
          rw [hkept] at hqueue
          exact .keptSent hpc (by rw [List.getElem?_eq_getElem hlt, hkept]) (of_decide_eq_true hqueue) hsend
      · cases htarget
    · obtain rfl := Option.some.inj h
      exact .closed
  · next now current packet haction hpc =>
    obtain ⟨w, hs, rfl⟩ := step_of_map ht h
    exact .admitted haction hpc hs
  · next hsend hadmission =>
    obtain ⟨w, hs, rfl⟩ := step_of_map ht h
    refine .stepped hs (fun now hnow => ?_) fun current packet ha hpc => (hsend current packet ha hpc).elim
    rw [hnow] at hs
    cases hs with
    | admission hpc => exact hadmission _ _ _ hnow hpc

end LiveWorld
end Nyarix
