import Nyarix.Packet

/-! Errors, the contract every module implements, and the shared pointer a graph node
keeps its module behind. -/

namespace Nyarix

inductive ModuleError where
  | initFailed (name reason : String)
  | crashed (name reason : String)
  | apiMismatch (name required actual : String)
  | missingDependency (name dependency : String)
  | circularDependency (chain : String)
  | quotaExceeded (name resource : String)
  | notExclusivelyOwned (name : String)
  deriving DecidableEq, Repr

inductive GraphError where
  | cycle (cycle : String)
  | missingNode (nodeId : String)
  | incompatibleEdge (fromNode toNode reason : String)
  | disconnected
  | buildFailed (reason : String)
  deriving DecidableEq, Repr

inductive ExecutionError where
  | module (error : ModuleError)
  | graph (error : GraphError)
  deriving DecidableEq, Repr

structure ResourceLimits where
  maxPayloadBytes : Option Nat
  maxProcessingTime : Option Duration
  deriving DecidableEq, Repr

def ResourceLimits.unbounded : ResourceLimits := ⟨none, none⟩

structure ModuleMetadata where
  name : String
  resourceLimits : ResourceLimits
  deriving DecidableEq, Repr

inductive NodeType where
  | source | transformer | filter | encryptor | packer | obfuscator | transport | router
  | aggregator | observer | policyResolver | sink
  deriving DecidableEq, Repr

/-- A call into a module either returns or unwinds. -/
inductive Unwind (α : Type*) where
  | returned (value : α)
  | panicked (reason : String)
  deriving DecidableEq

def Unwind.bind {A B : Type*} : Unwind A → (A → Unwind B) → Unwind B
  | .returned a, f => f a
  | .panicked reason, _ => .panicked reason

theorem Unwind.bind_returned_iff {A B : Type*} {x : Unwind A} {f : A → Unwind B} {b : B} :
    x.bind f = .returned b ↔ ∃ a, x = .returned a ∧ f a = .returned b := by
  cases x with
  | returned a => exact ⟨fun h => ⟨a, rfl, h⟩, fun ⟨_, h, hf⟩ => Unwind.returned.inj h ▸ hf⟩
  | panicked reason => exact iff_of_false (fun h => by cases h) fun ⟨_, h, _⟩ => by cases h

theorem Unwind.checked_returned_iff {A : Type*} {check : Prop} [Decidable check] {a b : A} {reason : String} :
    (if check then .returned a else .panicked reason) = Unwind.returned b ↔ check ∧ b = a := by
  split_ifs with hcheck
  · rw [and_iff_right hcheck, Unwind.returned.injEq, eq_comm]
  · exact iff_of_false (fun h => by cases h) fun h => hcheck h.1

/-- The contract of a graph node's module; each call leaves the module in a new state. -/
class Node (M : Type) where
  metadata : M → ModuleMetadata
  nodeType : M → NodeType
  initializeModule : M → M × Unwind (Except ModuleError Unit)
  process : M → Packet → M × Unwind (Except ModuleError (Option Packet))
  shutdown : M → M × Unwind (Except ModuleError Unit)
  migrate : M → M × Unwind (Except ModuleError Unit)

/-- A reference-counted module instance; `ptr` is its identity. -/
structure ArcNode (M : Type) where
  ptr : Nat
  strongCount : Nat
  module : M

/-- Call through `Arc::get_mut`, which only succeeds for the one owner. -/
def ArcNode.call {M α : Type} [Node M] (arc : ArcNode M)
    (f : M → M × Unwind (Except ModuleError α)) : ArcNode M × Unwind (Except ModuleError α) :=
  if arc.strongCount = 1 then ({ arc with module := (f arc.module).1 }, (f arc.module).2)
  else (arc, .returned (.error (.notExclusivelyOwned (Node.metadata arc.module).name)))

@[simp] theorem ArcNode.call_ptr {M α : Type} [Node M] (arc : ArcNode M)
    (f : M → M × Unwind (Except ModuleError α)) : (arc.call f).1.ptr = arc.ptr := by
  unfold call
  split_ifs <;> rfl

end Nyarix
