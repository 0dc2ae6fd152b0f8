import Nyarix.Packet

/-! Routing conditions and the edges that carry them. -/

namespace Nyarix

inductive Condition where
  | hasTag (tag : Tag)
  | tagsIntersect (mask : Tags)
  | priorityAtLeast (min : BitVec 8)
  | not (inner : Condition)
  | all (conditions : List Condition)
  | any (conditions : List Condition)

mutual

def Condition.evaluate (packet : Packet) : Condition → Bool
  | .hasTag tag => packet.hasTag tag
  | .tagsIntersect mask => packet.tags.intersects mask
  | .priorityAtLeast min => min ≤ packet.metadata.priority
  | .not inner => !inner.evaluate packet
  | .all conditions => Condition.evaluateAll packet conditions
  | .any conditions => Condition.evaluateAny packet conditions

def Condition.evaluateAll (packet : Packet) : List Condition → Bool
  | [] => true
  | c :: cs => c.evaluate packet && Condition.evaluateAll packet cs

def Condition.evaluateAny (packet : Packet) : List Condition → Bool
  | [] => false
  | c :: cs => c.evaluate packet || Condition.evaluateAny packet cs

end

inductive EdgeType where
  | sequential | conditional | parallel | fallback
  deriving DecidableEq, Repr

structure Edge where
  fromNode : NodeId
  toNode : NodeId
  edgeType : EdgeType
  condition : Option Condition

def Edge.accepts (edge : Edge) (packet : Packet) : Bool :=
  match edge.condition with
  | none => true
  | some condition => condition.evaluate packet

end Nyarix
