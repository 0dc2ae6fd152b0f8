import Nyarix.Graph.Integrity

/-! Which failed edits leave the graph as it was. An edit that fails after its first change
leaves the change behind, and drops the nodes it had taken out or was given. -/

namespace Nyarix

inductive FallibleEdit (M : Type) where
  | connect (edge : Edge)
  | insertAfter (afterId : NodeId) (newNode : GraphNode M)
  | removeAndReconnect (id : NodeId)
  | swapNode (id : NodeId) (newModule : ArcNode M)

def FallibleEdit.given {M : Type} : FallibleEdit M → List (GraphNode M)
  | .insertAfter _ newNode => [newNode]
  | _ => []

namespace FlowGraph
variable {M : Type}

/-- The graph an edit leaves and the error it returns, if it returns one. -/
def attempt [Node M] (g : FlowGraph M) : FallibleEdit M → FlowGraph M × Option GraphError
  | .connect edge => ((g.connect edge).1, errorOf (g.connect edge).2)
  | .insertAfter afterId newNode =>
    ((g.insertAfter afterId newNode).1, errorOf (g.insertAfter afterId newNode).2)
  | .removeAndReconnect id => ((g.removeAndReconnect id).1, errorOf (g.removeAndReconnect id).2)
  | .swapNode id newModule =>
    ((g.swapNode id newModule).1,
      match (g.swapNode id newModule).2 with
      | .returned r => errorOf r
      | .panicked _ => none)

def stored (g : FlowGraph M) : List (GraphNode M) := g.nodes.entries.map Sigma.snd

/-- If the edit fails, the graph is as before, and every node is still owned by it. -/
def FailsAtomically [Node M] (g : FlowGraph M) (e : FallibleEdit M) : Prop :=
  ∀ g' error, g.attempt e = (g', some error) → g' = g ∧ g'.stored.Perm (e.given ++ g.stored)

def HasSelfLoop (g : FlowGraph M) (id : NodeId) : Prop :=
  ∃ edge ∈ g.edges, edge.fromNode = id ∧ edge.toNode = id

/-- The graphs that edits and writes to single nodes can produce. -/
inductive Reachable [Node M] : FlowGraph M → Prop
  | new : Reachable new
  | edit {g} (call : GraphCall M) : Reachable g → Reachable (g.edit call)
  | write {g} (id : NodeId) (f : GraphNode M → GraphNode M) (hf : ∀ node, (f node).id = node.id) :
    Reachable g → Reachable (g.modifyNode id f)

def FailsEarly (g : FlowGraph M) : FallibleEdit M → Prop
  | .connect _ => True
  | .insertAfter afterId _ => afterId ∈ g.nodes ∧ (g.edgesFrom afterId).length ≤ 1
  | .removeAndReconnect id =>
    g.HasSelfLoop id → 1 < (g.predecessors id).length ∧ 1 < (g.successors id).length
  | .swapNode _ _ => True

theorem WellFormed.modifyNode {g : FlowGraph M} (h : g.WellFormed) (id : NodeId)
    {f : GraphNode M → GraphNode M} (hf : ∀ node, (f node).id = node.id) :
    (g.modifyNode id f).WellFormed where
  keys k := (h.keys k).trans (HashMap.mem_modify _ _ _ _).symm
  endpoints edge he := by
    have hends := h.endpoints edge he
    exact ⟨(HashMap.mem_modify _ _ _ _).mpr hends.1, (HashMap.mem_modify _ _ _ _).mpr hends.2⟩
  adjacent k hk := h.adjacent k ((HashMap.mem_modify _ _ _ _).mp hk)
  ownId k node hnode := by
    rw [node_modifyNode] at hnode
    split_ifs at hnode with hk
    · obtain ⟨old, hold, rfl⟩ := Option.map_eq_some_iff.mp hnode
      rw [hf, h.ownId id old (hk ▸ hold), hk]
    · exact h.ownId k node hnode
  entryNodup := h.entryNodup
  exitNodup := h.exitNodup

theorem Reachable.wellFormed [Node M] {g : FlowGraph M} (h : g.Reachable) : g.WellFormed := by
  induction h with
  | new => exact wellFormed_new
  | edit call _ ih => exact ih.edit call
  | write id f hf _ ih => exact ih.modifyNode id hf

theorem reachable_edits [Node M] (calls : List (GraphCall M)) : (calls.foldl edit new).Reachable :=
  List.foldlRecOn calls edit .new fun _ h call _ => .edit call h

theorem stubGraph_reachable (nodes : List (NodeType × StubBehaviour)) (edges : List (BitVec 128 × BitVec 128 × EdgeType)) :
    (stubGraph nodes edges).Reachable := by
  unfold stubGraph
  refine List.foldlRecOn edges _ ?_ fun g hg edge _ => .edit (.connect ⟨⟨edge.1⟩, ⟨edge.2.1⟩, edge.2.2, none⟩) hg
  exact List.foldlRecOn nodes.zipIdx _ .new fun g hg node _ => .edit (.addNode _) hg

theorem insertAfter_ok {g : FlowGraph M} (h : g.WellFormed) {afterId : NodeId} {newNode : GraphNode M}
    (hafter : afterId ∈ g.nodes) (hout : (g.edgesFrom afterId).length ≤ 1) :
    (g.insertAfter afterId newNode).2 = .ok () := by
  have hnew : newNode.id ∈ (g.addNode newNode).nodes := mem_addNode.mpr (.inl rfl)
  have hkept : ∀ {id}, id ∈ g.nodes → id ∈ (g.addNode newNode).nodes := fun h => mem_addNode.mpr (.inr h)
  rw [insertAfter, if_neg (not_not.mpr hafter)]
  split
  · exact (connect_ok_iff _ _).mpr ⟨hkept hafter, hnew⟩
  · rename_i old hold
    have hmem : old ∈ g.edgesFrom afterId := hold ▸ List.mem_singleton_self old
    have hto := hkept (h.endpoints old (List.mem_filter.mp hmem).1).2
    dsimp only
    split
    · rename_i g' hg'
      have hnodes := congrArg (fun r => r.1.nodes) hg'
      dsimp only at hnodes
      rw [connect_nodes] at hnodes
      rw [connect_ok_iff, ← hnodes]
      exact ⟨hnew, hto⟩
    · rename_i hfail
      exact (connect_ok_iff _ _).mpr ⟨hkept hafter, hnew⟩
  · rename_i hnil hone
    rcases length_le_one_cases hout with hlen | ⟨old, hold⟩
    · exact absurd hlen hnil
    · exact absurd hold (hone old)

theorem insertAfter_error {g : FlowGraph M} {afterId : NodeId} (newNode : GraphNode M)
    (hcheck : ¬ (afterId ∈ g.nodes ∧ (g.edgesFrom afterId).length ≤ 1)) :
    ∃ error, g.insertAfter afterId newNode = (g, .error error) := by
  unfold insertAfter
  by_cases hafter : afterId ∈ g.nodes
  · rw [if_neg (not_not.mpr hafter)]
    split
    · rename_i hnil
      exact absurd ⟨hafter, by rw [hnil]; exact Nat.zero_le 1⟩ hcheck
    · rename_i old hold
      exact absurd ⟨hafter, by rw [hold]; exact Nat.le_refl 1⟩ hcheck
    · exact ⟨_, rfl⟩
  · exact ⟨_, if_pos hafter⟩

theorem insertAfter_ok_iff {g : FlowGraph M} (h : g.WellFormed) {afterId : NodeId} {newNode : GraphNode M} :
    (g.insertAfter afterId newNode).2 = .ok () ↔ afterId ∈ g.nodes ∧ (g.edgesFrom afterId).length ≤ 1 := by
  refine ⟨fun hok => ?_, fun hcheck => insertAfter_ok h hcheck.1 hcheck.2⟩
  by_contra hcheck
  obtain ⟨error, herror⟩ := insertAfter_error newNode hcheck
  rw [herror] at hok
  cases hok

theorem failsAtomically_of_unchanged [Node M] {g : FlowGraph M} {e : FallibleEdit M} (hgiven : e.given = [])
    (h : ∀ g' error, g.attempt e = (g', some error) → g' = g) : g.FailsAtomically e := by
  intro g' error hfail
  obtain rfl := h g' error hfail
  rw [hgiven]
  exact ⟨rfl, List.Perm.refl _⟩

theorem failsAtomically_removeAndReconnect [Node M] {g : FlowGraph M} (h : g.WellFormed) (id : NodeId) :
    g.FailsAtomically (.removeAndReconnect id) ↔ g.FailsEarly (.removeAndReconnect id) := by
  by_cases hcheck : id ∉ g.nodes ∨ 1 < (g.predecessors id).length ∧ 1 < (g.successors id).length
  · obtain ⟨error, hearly⟩ := removeAndReconnect_early hcheck
    refine iff_of_true (failsAtomically_of_unchanged rfl fun g' e hfail => ?_) fun hloop => ?_
    · rw [attempt, hearly] at hfail
      exact (congrArg Prod.fst hfail).symm
    · obtain ⟨edge, he, hfrom, -⟩ := hloop
      exact hcheck.resolve_left (not_not.mpr (hfrom ▸ (h.endpoints edge he).1))
  rw [not_or, not_not] at hcheck
  obtain ⟨hid, hfew⟩ := hcheck
  obtain ⟨hnodes, hnone⟩ := removeAndReconnect_late hid hfew
  constructor
  · rintro hatomic ⟨edge, he, hfrom, hto⟩
    -- the bridge from the node to itself cannot be connected, and the node is gone
    have hbridge : (id, id) ∈ g.bridges id := mem_bridges.mpr ⟨⟨edge, he, hfrom, hto⟩, edge, he, hfrom, hto⟩
    obtain ⟨error, herror⟩ := Option.ne_none_iff_exists'.mp fun hn =>
      (AList.mem_erase.mp (hnone.mp hn _ hbridge).1).1 rfl
    have hsame : (g.removeAndReconnect id).1 = g := (hatomic _ error (Prod.ext rfl herror)).1
    have herased : id ∈ g.nodes.erase id := by
      rw [← hnodes, hsame]
      exact hid
    exact absurd rfl (AList.mem_erase.mp herased).1
  · intro hearly g' error hfail
    have hloop : ¬ g.HasSelfLoop id := fun hl => hfew (hearly hl)
    have hnofail := hnone.mpr fun (a, b) hab => by
      obtain ⟨⟨e, he, hfrom, hto⟩, e', he', hfrom', hto'⟩ := mem_bridges.mp hab
      refine ⟨AList.mem_erase.mpr ⟨?_, hfrom ▸ (h.endpoints e he).1⟩,
        AList.mem_erase.mpr ⟨?_, hto' ▸ (h.endpoints e' he').2⟩⟩
      · rintro rfl
        exact hloop ⟨e, he, hfrom, hto⟩
      · rintro rfl
        exact hloop ⟨e', he', hfrom', hto'⟩
    rw [attempt, hnofail] at hfail
    cases hfail

theorem failsAtomically_insertAfter [Node M] {g : FlowGraph M} (h : g.WellFormed) (afterId : NodeId)
    (newNode : GraphNode M) :
    g.FailsAtomically (.insertAfter afterId newNode) ↔ g.FailsEarly (.insertAfter afterId newNode) := by
  constructor
  · intro hatomic
    by_contra hcheck
    obtain ⟨error, hearly⟩ := insertAfter_error newNode hcheck
    have hperm := (hatomic g error (by rw [attempt, hearly, errorOf])).2
    -- the graph does not hold the node it was given
    have hlen := hperm.length_eq
    rw [FallibleEdit.given, List.length_append, List.length_singleton] at hlen
    omega
  · rintro ⟨hafter, hout⟩ g' error hfail
    rw [attempt, insertAfter_ok h hafter hout, errorOf] at hfail
    cases hfail

/-- A failed edit of a reachable graph costs nothing exactly when it fails before its first change
and was given no node: never for `insert_after`, always for `connect` and `swap_node`, and for
`remove_and_reconnect` unless the node has an edge to itself and the call is not ambiguous. -/
theorem failsAtomically_iff [Node M] {g : FlowGraph M} (h : g.Reachable) (e : FallibleEdit M) :
    g.FailsAtomically e ↔ g.FailsEarly e := by
  cases e with
  | connect edge =>
    refine iff_of_true (failsAtomically_of_unchanged rfl fun g' error hfail => ?_) trivial
    rw [attempt, Prod.mk.injEq] at hfail
    obtain ⟨rfl, hfail⟩ := hfail
    cases hr : (g.connect edge).2 with
    | ok _ =>
      rw [hr] at hfail
      cases hfail
    | error _ => exact connect_error hr
  | insertAfter afterId newNode => exact failsAtomically_insertAfter h.wellFormed afterId newNode
  | removeAndReconnect id => exact failsAtomically_removeAndReconnect h.wellFormed id
  | swapNode id newModule =>
    refine iff_of_true (failsAtomically_of_unchanged rfl fun g' error hfail => ?_) trivial
    rcases g.swapNode_cases id newModule with ⟨-, hs⟩ | ⟨old, -, ⟨_, hs⟩ | ⟨_, -, hs⟩⟩ <;>
      rw [attempt, hs] at hfail
    · exact (congrArg Prod.fst hfail).symm
    · cases hfail
    · cases hfail

def selfLoop : FlowGraph StubNode :=
  [.addNode (.new ⟨0⟩ ⟨0, 1, ⟨"stub", .transformer, .passes⟩⟩ .default),
    .connect ⟨⟨0⟩, ⟨0⟩, .sequential, none⟩].foldl edit new

theorem selfLoop_reachable : selfLoop.Reachable := reachable_edits _

theorem failsAtomically_iff_selfLoop : selfLoop.FailsAtomically (.removeAndReconnect ⟨0⟩) ↔
    selfLoop.FailsEarly (.removeAndReconnect ⟨0⟩) := failsAtomically_iff selfLoop_reachable _

/-- Removing the looping node reports it missing, and leaves an empty graph behind. -/
theorem selfLoop_loses_node : selfLoop.Reachable ∧ ¬ selfLoop.FailsAtomically (.removeAndReconnect ⟨0⟩) := by
  refine ⟨selfLoop_reachable, fun hatomic => ?_⟩
  have hfail : selfLoop.attempt (.removeAndReconnect ⟨0⟩) =
      ((selfLoop.removeAndReconnect ⟨0⟩).1, some (.missingNode (toString (⟨0⟩ : NodeId)))) := rfl
  have hlen := congrArg (fun g => g.stored.length) (hatomic _ _ hfail).1
  revert hlen
  decide

end FlowGraph
end Nyarix
