import Nyarix.Graph.Queue
import Nyarix.Module

/-! A graph node: a module, its lifecycle state and its input queue. -/

namespace Nyarix

inductive NodeState where
  | uninitialized | initializing | running | degraded | stopping | stopped
  deriving DecidableEq, Repr

/-- Node configuration; a queue of capacity zero cannot be created. -/
structure NodeConfig where
  queueCapacity : Nat
  queueCapacity_pos : 0 < queueCapacity

def NodeConfig.defaultQueueCapacity : Nat := 64

def NodeConfig.default : NodeConfig := ⟨defaultQueueCapacity, by decide⟩

structure GraphNode (M : Type) where
  id : NodeId
  nodeType : NodeType
  module : ArcNode M
  config : NodeConfig
  state : NodeState
  queue : NodeQueue

namespace GraphNode
variable {M : Type} [Node M]

def new (id : NodeId) (module : ArcNode M) (config : NodeConfig) : GraphNode M where
  id := id
  nodeType := Node.nodeType module.module
  module := module
  config := config
  state := .uninitialized
  queue := nodeQueue config.queueCapacity config.queueCapacity_pos

def metadata (node : GraphNode M) : ModuleMetadata := Node.metadata node.module.module

def call {α : Type} (node : GraphNode M) (f : M → M × Unwind (Except ModuleError α)) :
    GraphNode M × Unwind (Except ModuleError α) :=
  ({ node with module := (node.module.call f).1 }, (node.module.call f).2)

def process (node : GraphNode M) (packet : Packet) :
    GraphNode M × Unwind (Except ModuleError (Option Packet)) :=
  node.call fun m => Node.process m packet

def migrate (node : GraphNode M) : GraphNode M × Unwind (Except ModuleError Unit) :=
  node.call Node.migrate

/-- Run a lifecycle call between two state transitions, the second only on success. -/
def transition (node : GraphNode M) (before after : NodeState)
    (f : M → M × Unwind (Except ModuleError Unit)) : GraphNode M × Unwind (Except ModuleError Unit) :=
  match ({ node with state := before } : GraphNode M).call f with
  | (node, .returned (.ok ())) => ({ node with state := after }, .returned (.ok ()))
  | r => r

def initializeModule (node : GraphNode M) : GraphNode M × Unwind (Except ModuleError Unit) :=
  node.transition .initializing .running Node.initializeModule

def shutdown (node : GraphNode M) : GraphNode M × Unwind (Except ModuleError Unit) :=
  node.transition .stopping .stopped Node.shutdown

variable {α : Type} (node : GraphNode M) (f : M → M × Unwind (Except ModuleError α))

@[simp] theorem call_ptr : (node.call f).1.module.ptr = node.module.ptr := ArcNode.call_ptr _ _

@[simp] theorem process_ptr (packet : Packet) :
    (node.process packet).1.module.ptr = node.module.ptr := call_ptr _ _

@[simp] theorem process_queue (packet : Packet) : (node.process packet).1.queue = node.queue := rfl

@[simp] theorem migrate_ptr : node.migrate.1.module.ptr = node.module.ptr := call_ptr _ _

theorem transition_ptr (before after : NodeState) (f : M → M × Unwind (Except ModuleError Unit)) :
    (node.transition before after f).1.module.ptr = node.module.ptr := by
  have h := call_ptr ({ node with state := before } : GraphNode M) f
  unfold transition
  split
  · rename_i n hn
    rw [hn] at h
    exact h
  · exact h

@[simp] theorem initializeModule_ptr : node.initializeModule.1.module.ptr = node.module.ptr :=
  transition_ptr _ _ _ _

end GraphNode
end Nyarix
