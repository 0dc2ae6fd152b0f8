import Nyarix.Graph.FlowGraph

/-! Stub modules for concrete graphs: one passes every packet on, one absorbs it, one fails. -/

namespace Nyarix

inductive StubBehaviour where
  | passes | absorbs | fails
  deriving DecidableEq, Repr

structure StubNode where
  name : String
  nodeType : NodeType
  behaviour : StubBehaviour
  deriving DecidableEq, Repr

def StubNode.process (m : StubNode) (packet : Packet) : Except ModuleError (Option Packet) :=
  match m.behaviour with
  | .passes => .ok (some packet)
  | .absorbs => .ok none
  | .fails => .error (.crashed m.name "boom")

instance : Node StubNode where
  metadata m := ⟨m.name, .unbounded⟩
  nodeType m := m.nodeType
  initializeModule m := (m, .returned (.ok ()))
  process m packet := (m, .returned (m.process packet))
  shutdown m := (m, .returned (.ok ()))
  migrate m := (m, .returned (.ok ()))

def stubGraph (nodes : List (NodeType × StubBehaviour)) (edges : List (BitVec 128 × BitVec 128 × EdgeType)) :
    FlowGraph StubNode :=
  let g := nodes.zipIdx.foldl (fun g ((nodeType, behaviour), k) =>
    g.addNode (.new ⟨k⟩ ⟨k, 1, ⟨"stub", nodeType, behaviour⟩⟩ .default)) FlowGraph.new
  edges.foldl (fun g (a, b, edgeType) => (g.connect ⟨⟨a⟩, ⟨b⟩, edgeType, none⟩).1) g

def relay : FlowGraph StubNode := stubGraph [(.source, .passes), (.sink, .passes)] [(0, 1, .sequential)]

def stubPacket (id : BitVec 128) : Packet := Packet.new ⟨id⟩ [] (Metadata.new ⟨id⟩ ⟨id⟩ ⟨id⟩ 0)

def bytes (payload : List UInt8) : Packet := Packet.new ⟨7⟩ payload (Metadata.new ⟨7⟩ ⟨7⟩ ⟨7⟩ 0)

end Nyarix
