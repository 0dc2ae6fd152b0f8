import Nyarix.Execution.Parallel
import Nyarix.Lib.Tokens

/-! The fork-join reference: what a packet given to a node should yield, and when it fails.
The reference of a node visit reads the clock once, for the hop it records. -/

namespace Nyarix

def Stateless (M : Type) [Node M] : Prop := ∀ (m : M) (packet : Packet), (Node.process m packet).1 = m

section Reference
variable {M : Type} [Node M]

def FlowGraph.accepting (g : FlowGraph M) (n : NodeId) (packet : Packet) : List Edge :=
  (g.edgesFrom n).filter (·.accepts packet)

def FlowGraph.forkTargets (g : FlowGraph M) (n : NodeId) (packet : Packet) : List NodeId :=
  ((g.accepting n packet).filter (·.edgeType = .parallel)).map Edge.toNode

mutual

/-- The packets that come out of the graph when `packet` is given to node `n`. -/
inductive Ref (g : FlowGraph M) : NodeId → Packet → List Packet → Prop
  | visit {n packet node outs} (now : Instant) (hnode : g.node n = some node)
      (hlimit : node.checkPayloadLimit packet = .ok ()) (h : RefServed g n (packet.recordHop n now) outs) :
      Ref g n packet outs

inductive RefServed (g : FlowGraph M) : NodeId → Packet → List Packet → Prop
  | absorbed {n packet node} (hnode : g.node n = some node)
      (hp : (node.process packet).2 = .returned (.ok none)) : RefServed g n packet []
  | exited {n packet node processed} (hnode : g.node n = some node)
      (hp : (node.process packet).2 = .returned (.ok (some processed))) (hexit : n ∈ g.exitPoints) :
      RefServed g n packet [processed]
  | fork {n packet node processed outs} (hnode : g.node n = some node)
      (hp : (node.process packet).2 = .returned (.ok (some processed))) (hexit : n ∉ g.exitPoints)
      (hfork : g.forkTargets n processed ≠ []) (h : RefAll g (g.forkTargets n processed) processed outs) :
      RefServed g n packet outs
  | next {n packet node processed edge outs} (hnode : g.node n = some node)
      (hp : (node.process packet).2 = .returned (.ok (some processed))) (hexit : n ∉ g.exitPoints)
      (hfork : g.forkTargets n processed = []) (hnext : (g.accepting n processed).head? = some edge)
      (h : Ref g edge.toNode processed outs) : RefServed g n packet outs

inductive RefAll (g : FlowGraph M) : List NodeId → Packet → List Packet → Prop
  | nil {packet} : RefAll g [] packet []
  | cons {target targets packet outs rest} (h : Ref g target packet outs)
      (hrest : RefAll g targets packet rest) : RefAll g (target :: targets) packet (outs ++ rest)

end

mutual

inductive RefFails (g : FlowGraph M) : NodeId → Packet → Prop
  | missing {n packet} (hnode : g.node n = none) : RefFails g n packet
  | oversized {n packet node e} (hnode : g.node n = some node)
      (hlimit : node.checkPayloadLimit packet = .error e) : RefFails g n packet
  | served {n packet} (now : Instant) (h : RefServeFails g n (packet.recordHop n now)) : RefFails g n packet

inductive RefServeFails (g : FlowGraph M) : NodeId → Packet → Prop
  | failed {n packet node e} (hnode : g.node n = some node)
      (hp : (node.process packet).2 = .returned (.error e)) : RefServeFails g n packet
  | panicked {n packet node reason} (hnode : g.node n = some node)
      (hp : (node.process packet).2 = .panicked reason) : RefServeFails g n packet
  | deadEnd {n packet node processed} (hnode : g.node n = some node)
      (hp : (node.process packet).2 = .returned (.ok (some processed))) (hexit : n ∉ g.exitPoints)
      (hnext : g.accepting n processed = []) : RefServeFails g n packet
  | fork {n packet node processed target} (hnode : g.node n = some node)
      (hp : (node.process packet).2 = .returned (.ok (some processed))) (hexit : n ∉ g.exitPoints)
      (htarget : target ∈ g.forkTargets n processed) (h : RefFails g target processed) : RefServeFails g n packet
  | next {n packet node processed edge} (hnode : g.node n = some node)
      (hp : (node.process packet).2 = .returned (.ok (some processed))) (hexit : n ∉ g.exitPoints)
      (hfork : g.forkTargets n processed = []) (hnext : (g.accepting n processed).head? = some edge)
      (h : RefFails g edge.toNode processed) : RefServeFails g n packet

end

def Call.Fails (g : FlowGraph M) (call : Call) : Prop :=
  call.entry ∉ g.entryPoints ∨ RefFails g call.entry call.packet

/-- Where a packet is on its way: to be given to a node, in a node's queue, or out. -/
inductive Token where
  | todo (n : NodeId) (packet : Packet)
  | queued (n : NodeId) (packet : Packet)
  | out (packet : Packet)

/-- The packets that a token's packet can still become. -/
def Token.yields (g : FlowGraph M) : Token → Multiset Packet → Prop
  | .todo n packet, o => ∃ outs : List Packet, Ref g n packet outs ∧ o = outs
  | .queued n packet, o => ∃ outs : List Packet, RefServed g n packet outs ∧ o = outs
  | .out packet, o => o = {packet}

def Token.fails (g : FlowGraph M) : Token → Prop
  | .todo n packet => RefFails g n packet
  | .queued n packet => RefServeFails g n packet
  | .out _ => False

abbrev Refines (g : FlowGraph M) : Multiset Token → Multiset Token → Prop :=
  Tokens.Refines (Token.yields g) (Token.fails g)

variable {g : FlowGraph M} {n : NodeId} {packet : Packet}

theorem yields_out {packets : List Packet} {o : Multiset Packet} :
    Tokens.Yields (Token.yields g) (packets.map Token.out : Multiset Token) o ↔ o = packets := by
  induction packets generalizing o with
  | nil => exact Tokens.yields_zero
  | cons packet packets ih =>
    rw [List.map_cons, ← Multiset.cons_coe, ← Multiset.singleton_add, Tokens.yields_add,
      ← Multiset.cons_coe, ← Multiset.singleton_add]
    constructor
    · rintro ⟨a, b, ha, hb, rfl⟩
      rw [Tokens.yields_singleton.mp ha, ih.mp hb]
    · intro h
      exact ⟨_, _, Tokens.yields_singleton.mpr rfl, ih.mpr rfl, h⟩

theorem refines_admission {now : Instant} {admitted : Packet} (h : g.admission n packet now = .ok admitted) :
    Refines g {.todo n packet} {.queued n admitted} := by
  obtain ⟨node, hnode, hlimit, rfl⟩ := FlowGraph.admission_eq_ok h
  constructor
  · intro o ho
    obtain ⟨outs, hs, rfl⟩ := Tokens.yields_singleton.mp ho
    exact Tokens.yields_singleton.mpr ⟨outs, .visit now hnode hlimit hs, rfl⟩
  · intro hb t ht hf
    rw [Multiset.mem_singleton.mp ht] at hf
    exact hb _ (Multiset.mem_singleton_self _) (.served now hf)

theorem fails_of_admission {now : Instant} {e : ExecutionError} (h : g.admission n packet now = .error e) :
    RefFails g n packet := by
  rcases FlowGraph.admission_eq_error h with hnode | ⟨node, hnode, hlimit⟩
  · exact .missing hnode
  · exact .oversized hnode hlimit

def BranchStep.tokens : BranchStep → Multiset Token
  | .finished (.ok packets) => packets.map Token.out
  | .finished _ => 0
  | .goto next packet => {.todo next packet}
  | .fork targets packet => Tally.sumOver (fun target => {.todo target packet}) targets

def BranchStep.Succeeds : BranchStep → Prop
  | .finished (.ok _) | .goto .. | .fork .. => True
  | .finished (.err _) | .finished (.panicked _) => False

omit [Node M] in
theorem runBranch_some (g : FlowGraph M) (n : NodeId) (packet : Packet) (hexit : n ∉ g.exitPoints) :
    runBranch n (g.walkStep n (some packet)) =
      if g.forkTargets n packet = [] then
        match (g.accepting n packet).head? with
        | none => .finished (.err (deadEnd n))
        | some edge => .goto edge.toNode packet
      else .fork (g.forkTargets n packet) packet := by
  have htargets : parallelTargets ((g.accepting n packet).map fun edge => (edge.edgeType, edge.toNode)) =
      g.forkTargets n packet := by
    simp only [parallelTargets, FlowGraph.forkTargets, List.filter_map, List.map_map]
    rfl
  simp only [FlowGraph.walkStep, if_neg hexit, runBranch]
  rw [← FlowGraph.accepting, htargets, List.head?_map]
  cases (g.accepting n packet).head? <;> rfl

theorem yields_todo_all {targets : List NodeId} {o : Multiset Packet}
    (h : Tokens.Yields (Token.yields g) (Tally.sumOver (fun target => {.todo target packet}) targets) o) :
    ∃ outs, RefAll g targets packet outs ∧ o = outs := by
  induction targets generalizing o with
  | nil => exact ⟨[], .nil, Tokens.yields_zero.mp h⟩
  | cons target targets ih =>
    obtain ⟨a, b, ha, hb, rfl⟩ := Tokens.yields_add.mp h
    obtain ⟨outs, ho, rfl⟩ := Tokens.yields_singleton.mp ha
    obtain ⟨rest, hr, rfl⟩ := ih hb
    exact ⟨outs ++ rest, .cons ho hr, Multiset.coe_add outs rest⟩

theorem yields_calls {calls : List Call} {o : Multiset Packet}
    (h : Tokens.Yields (Token.yields g) (Tally.sumOver (fun call => {.todo call.entry call.packet}) calls) o) :
    ∃ outs, List.Forall₂ (fun call out => Ref g call.entry call.packet out) calls outs ∧
      o = (outs.flatten : List Packet) := by
  induction calls generalizing o with
  | nil => exact ⟨[], .nil, Tokens.yields_zero.mp h⟩
  | cons call calls ih =>
    obtain ⟨a, b, ha, hb, rfl⟩ := Tokens.yields_add.mp h
    obtain ⟨out, hr, rfl⟩ := Tokens.yields_singleton.mp ha
    obtain ⟨outs, ho, rfl⟩ := ih hb
    exact ⟨out :: outs, .cons hr ho, Multiset.coe_add out outs.flatten⟩

theorem mem_todo_all {targets : List NodeId} {t : Token}
    (h : t ∈ Tally.sumOver (fun target => ({.todo target packet} : Multiset Token)) targets) :
    ∃ target ∈ targets, t = .todo target packet := by
  induction targets with
  | nil => cases h
  | cons target targets ih =>
    rcases Multiset.mem_add.mp h with h | h
    · exact ⟨target, List.mem_cons_self, Multiset.mem_singleton.mp h⟩
    · obtain ⟨target', ht, rfl⟩ := ih h
      exact ⟨target', List.mem_cons_of_mem _ ht, rfl⟩

theorem refines_runBranch {node : GraphNode M} (hnode : g.node n = some node) {processed : Option Packet}
    (hp : (node.process packet).2 = .returned (.ok processed)) (hb : ¬ RefServeFails g n packet) :
    (runBranch n (g.walkStep n processed)).Succeeds ∧
      Refines g {.queued n packet} (runBranch n (g.walkStep n processed)).tokens := by
  cases processed with
  | none =>
    refine ⟨trivial, fun o ho => ?_, fun _ t ht => by cases ht⟩
    obtain rfl := Tokens.yields_zero.mp ho
    exact Tokens.yields_singleton.mpr ⟨[], .absorbed hnode hp, rfl⟩
  | some processed =>
    by_cases hexit : n ∈ g.exitPoints
    · simp only [FlowGraph.walkStep, if_pos hexit, runBranch]
      refine ⟨trivial, fun o ho => ?_, fun _ t ht => ?_⟩
      · obtain rfl := yields_out.mp ho
        exact Tokens.yields_singleton.mpr ⟨[processed], .exited hnode hp hexit, rfl⟩
      · rw [Multiset.mem_singleton.mp ht]
        exact id
    · rw [runBranch_some g n processed hexit]
      split_ifs with hfork
      · cases hnext : (g.accepting n processed).head? with
        | none => exact absurd (.deadEnd hnode hp hexit (List.head?_eq_none_iff.mp hnext)) hb
        | some edge =>
          refine ⟨trivial, fun o ho => ?_, fun _ t ht => ?_⟩
          · obtain ⟨outs, hr, rfl⟩ := Tokens.yields_singleton.mp ho
            exact Tokens.yields_singleton.mpr ⟨outs, .next hnode hp hexit hfork hnext hr, rfl⟩
          · rw [Multiset.mem_singleton.mp ht]
            exact fun hf => hb (.next hnode hp hexit hfork hnext hf)
      · refine ⟨trivial, fun o ho => ?_, fun _ t ht => ?_⟩
        · obtain ⟨outs, hr, rfl⟩ := yields_todo_all ho
          exact Tokens.yields_singleton.mpr ⟨outs, .fork hnode hp hexit hfork hr, rfl⟩
        · obtain ⟨target, htarget, rfl⟩ := mem_todo_all ht
          exact fun hf => hb (.fork hnode hp hexit htarget hf)

end Reference
end Nyarix
