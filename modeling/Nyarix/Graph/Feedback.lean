import Nyarix.Graph.Splicing

/-! Live edits and allowed feedback: the pairs that an edit puts in place of others are not allowed
along with them, so an edit can close a cycle. When it does. -/

namespace Nyarix
namespace FlowGraph
variable {M : Type} {g g' : FlowGraph M}

def NoCycle (g : FlowGraph M) : Prop :=
  ∀ order fuel, order.Perm g.nodeIds → g.nodeIds.length ≤ fuel → g.detectCycle order fuel = some none

theorem noCycle_iff (hg : g.WellFormed) : g.NoCycle ↔ ∀ n, ¬ Relation.TransGen g.Checked n n := by
  constructor
  · intro h n
    have hacyclic := acyclic_of_detectCycle hg (.refl _) (h g.nodeIds g.nodeIds.length (.refl _) (Nat.le_refl _)) n
    rw [hg.checkedNeighbors_eq] at hacyclic
    exact hacyclic
  · exact fun h order fuel horder hfuel => hg.detectCycle_none horder hfuel h

theorem noCycle_of_detectCycle (hg : g.WellFormed) {order : List NodeId} {fuel : Nat} (horder : order.Perm g.nodeIds)
    (h : g.detectCycle order fuel = some none) : g.NoCycle := by
  refine (noCycle_iff hg).mpr fun n hn => acyclic_of_detectCycle hg horder h n ?_
  rw [hg.checkedNeighbors_eq]
  exact hn

/-- A node spliced in closes a cycle only where the edge it stands in led back, as allowed feedback. -/
theorem noCycle_splices (hg : g.WellFormed) (hg' : g'.WellFormed) {afterId : NodeId} {newNode : GraphNode M}
    (hafter : afterId ∈ g.nodes) (hnew : newNode.id ∉ g.nodes) (h : g.Splices afterId newNode g') (hacyclic : g.NoCycle) :
    g'.NoCycle ↔ ∀ target, g.Joins afterId target → (afterId, newNode.id) ∉ g.allowedFeedbackEdges →
      (newNode.id, target) ∉ g.allowedFeedbackEdges → ¬ Relation.ReflTransGen g.Checked target afterId := by
  have hfresh : ∀ x, ¬ g.Joins x newNode.id := fun x hjoins => hnew (hg.mem_of_joins hjoins).2
  have hstep : ∀ x y, g'.Checked x y ↔ x ≠ afterId ∧ x ≠ newNode.id ∧ g.Checked x y ∨
      (x = afterId ∧ y = newNode.id) ∧ (afterId, newNode.id) ∉ g.allowedFeedbackEdges ∨
      x = newNode.id ∧ g.Joins afterId y ∧ (newNode.id, y) ∉ g.allowedFeedbackEdges := by
    intro x y
    rw [Checked, h.edges.joins hg hnew, h.allowedFeedbackEdges]
    constructor
    · rintro ⟨⟨hx, hxn, hold⟩ | ⟨rfl, rfl⟩ | ⟨rfl, hout⟩, hallowed⟩
      · exact .inl ⟨hx, hxn, hold, hallowed⟩
      · exact .inr (.inl ⟨⟨rfl, rfl⟩, hallowed⟩)
      · exact .inr (.inr ⟨rfl, hout, hallowed⟩)
    · rintro (⟨hx, hxn, hold, hallowed⟩ | ⟨⟨rfl, rfl⟩, hallowed⟩ | ⟨rfl, hout, hallowed⟩)
      · exact ⟨.inl ⟨hx, hxn, hold⟩, hallowed⟩
      · exact ⟨.inr (.inl ⟨rfl, rfl⟩), hallowed⟩
      · exact ⟨.inr (.inr ⟨rfl, hout⟩), hallowed⟩
  have hne : afterId ≠ newNode.id := fun heq => hnew (heq ▸ hafter)
  rw [noCycle_iff hg', Rewiring.acyclic_splice hne (fun x hx => hfresh x hx.1) (fun hn => hfresh afterId hn.1) hstep
    ((noCycle_iff hg).mp hacyclic)]
  constructor
  · exact fun hnone target hout hin hallowed => hnone target hin ⟨hout, hallowed⟩
  · exact fun hnone target hin hout => hnone target hout.1 hin hout.2

/-- Bridges close a cycle only where one of them leads back, in place of allowed feedback. -/
theorem noCycle_bridges (hg : g.WellFormed) (hg' : g'.WellFormed) {id : NodeId} (hloop : ¬ g.Joins id id)
    (hfew : ¬ (1 < (g.predecessors id).length ∧ 1 < (g.successors id).length)) (h : g.Bridges id g')
    (hacyclic : g.NoCycle) :
    g'.NoCycle ↔ ∀ pred succ, g.Joins pred id → g.Joins id succ → (pred, succ) ∉ g.allowedFeedbackEdges →
      ¬ Relation.ReflTransGen g.Checked succ pred := by
  let bridge (pred succ : NodeId) : Prop :=
    (g.Joins pred id ∧ g.Joins id succ) ∧ (pred, succ) ∉ g.allowedFeedbackEdges
  have hends : ∀ pred succ, bridge pred succ → pred ≠ id ∧ succ ≠ id := by
    rintro pred succ ⟨⟨hin, hout⟩, -⟩
    exact ⟨fun heq => hloop (heq ▸ hin), fun heq => hloop (heq ▸ hout)⟩
  have hstep : ∀ x y, g'.Checked x y ↔ (x ≠ id ∧ y ≠ id ∧ g.Checked x y) ∨ bridge x y := by
    intro x y
    rw [Checked, h.joins hloop, h.allowedFeedbackEdges]
    constructor
    · rintro ⟨⟨hx, hy, hold | hbridge⟩, hallowed⟩
      · exact .inl ⟨hx, hy, hold, hallowed⟩
      · exact .inr ⟨hbridge, hallowed⟩
    · rintro (⟨hx, hy, hold, hallowed⟩ | hbridge)
      · exact ⟨⟨hx, hy, .inl hold⟩, hallowed⟩
      · obtain ⟨hx, hy⟩ := hends x y hbridge
        exact ⟨⟨hx, hy, .inr hbridge.1⟩, hbridge.2⟩
  -- bridges start at one vertex or end at one, since `remove_and_reconnect` refuses others
  have hone : ∀ {ids : List NodeId}, ids.length ≤ 1 → ∀ a b, a ∈ ids → b ∈ ids → a = b := by
    intro ids hlen a b ha hb
    obtain ⟨i, hi, rfl⟩ := List.mem_iff_getElem.mp ha
    obtain ⟨j, hj, rfl⟩ := List.mem_iff_getElem.mp hb
    congr 1
    omega
  have hpred : ∀ {p}, g.Checked p id ∨ (∃ s, bridge p s) → p ∈ g.predecessors id := by
    intro p hp
    have hjoins : g.Joins p id := hp.elim (·.1) fun ⟨_, hbridge⟩ => hbridge.1.1
    obtain ⟨edge, hedge, hfrom, hto⟩ := hjoins
    exact List.mem_map.mpr ⟨edge, List.mem_filter.mpr ⟨hedge, decide_eq_true hto⟩, hfrom⟩
  have hsucc : ∀ {s}, g.Checked id s ∨ (∃ p, bridge p s) → s ∈ g.successors id := fun hs =>
    mem_successors.mpr (hs.elim (·.1) fun ⟨_, hbridge⟩ => hbridge.1.2)
  have hsingle : (∀ p p', (g.Checked p id ∨ ∃ s, bridge p s) → (g.Checked p' id ∨ ∃ s, bridge p' s) → p = p') ∨
      ∀ s s', (g.Checked id s ∨ ∃ p, bridge p s) → (g.Checked id s' ∨ ∃ p, bridge p s') → s = s' := by
    by_cases hpreds : 1 < (g.predecessors id).length
    · right
      exact fun s s' hs hs' => hone (Nat.le_of_not_lt fun hmany => hfew ⟨hpreds, hmany⟩) s s' (hsucc hs) (hsucc hs')
    · left
      exact fun p p' hp hp' => hone (Nat.le_of_not_lt hpreds) p p' (hpred hp) (hpred hp')
  rw [noCycle_iff hg', Rewiring.acyclic_bridge hstep hends hsingle ((noCycle_iff hg).mp hacyclic)]
  constructor
  · exact fun hnone pred succ hin hout hallowed => hnone pred succ ⟨⟨hin, hout⟩, hallowed⟩
  · exact fun hnone pred succ hbridge => hnone pred succ hbridge.1.1 hbridge.1.2 hbridge.2

theorem allowed_of_leads_back (hwf : g.WellFormed) (hacyclic : g.NoCycle) {pred id succ : NodeId}
    (hin : g.Joins pred id) (hout : g.Joins id succ) (hback : Relation.ReflTransGen g.Checked succ pred) :
    (pred, id) ∈ g.allowedFeedbackEdges ∨ (id, succ) ∈ g.allowedFeedbackEdges := by
  by_contra hchecked
  rw [not_or] at hchecked
  have hway : Relation.TransGen g.Checked pred succ := .tail (.single ⟨hin, hchecked.1⟩) ⟨hout, hchecked.2⟩
  exact (noCycle_iff hwf).mp hacyclic pred (hway.trans_left hback)

/-- A live edit of a graph without a cycle closes one exactly where a pair that it puts in place of others,
not itself allowed, leads back along the edges that are checked; and then one of those others was allowed. -/
theorem live_edits_noCycle_iff [Node M] (hg : g.Reachable) (hacyclic : g.NoCycle) :
    (∀ afterId newNode, newNode.id ∉ g.nodes → (g.insertAfter afterId newNode).2 = .ok () →
      ((g.insertAfter afterId newNode).1.NoCycle ↔ ∀ target, g.Joins afterId target →
        (afterId, newNode.id) ∉ g.allowedFeedbackEdges → (newNode.id, target) ∉ g.allowedFeedbackEdges →
          ¬ Relation.ReflTransGen g.Checked target afterId) ∧
      (¬ (g.insertAfter afterId newNode).1.NoCycle → ∃ target, g.Joins afterId target ∧
        (afterId, target) ∈ g.allowedFeedbackEdges)) ∧
    ∀ id g' removed, g.removeAndReconnect id = (g', .ok removed) →
      (g'.NoCycle ↔ ∀ pred succ, g.Joins pred id → g.Joins id succ → (pred, succ) ∉ g.allowedFeedbackEdges →
        ¬ Relation.ReflTransGen g.Checked succ pred) ∧
      (¬ g'.NoCycle → ∃ pred succ, g.Joins pred id ∧ g.Joins id succ ∧
        ((pred, id) ∈ g.allowedFeedbackEdges ∨ (id, succ) ∈ g.allowedFeedbackEdges)) := by
  have hwf := hg.wellFormed
  refine ⟨fun afterId newNode hnew hok => ?_, fun id g' removed h => ?_⟩
  · have hcheck : afterId ∈ g.nodes ∧ (g.edgesFrom afterId).length ≤ 1 := (insertAfter_ok_iff hwf).mp hok
    have hsplices := splices_insertAfter hwf newNode hcheck.1 hcheck.2
    have hiff := noCycle_splices hwf (hwf.insertAfter afterId newNode) hcheck.1 hnew hsplices hacyclic
    refine ⟨hiff, fun hcycle => ?_⟩
    rw [hiff] at hcycle
    push Not at hcycle
    obtain ⟨target, hjoins, -, -, hback⟩ := hcycle
    refine ⟨target, hjoins, ?_⟩
    -- had the split edge been checked, it would have closed the cycle before
    by_contra hchecked
    exact (noCycle_iff hwf).mp hacyclic afterId (.head' ⟨hjoins, hchecked⟩ hback)
  · obtain ⟨hbridges, hloop, hfew⟩ := bridges_removeAndReconnect h
    have hwf' := hwf.removeAndReconnect id
    rw [h] at hwf'
    have hiff := noCycle_bridges hwf hwf' hloop hfew hbridges hacyclic
    refine ⟨hiff, fun hcycle => ?_⟩
    rw [hiff] at hcycle
    push Not at hcycle
    obtain ⟨pred, succ, hin, hout, -, hback⟩ := hcycle
    exact ⟨pred, succ, hin, hout, allowed_of_leads_back hwf hacyclic hin hout hback⟩

def circle : FlowGraph StubNode :=
  (stubGraph [(.source, .passes), (.router, .passes), (.sink, .passes)]
    [(0, 1, .sequential), (1, 2, .sequential), (2, 0, .sequential)]).allowFeedbackEdge ⟨2⟩ ⟨0⟩

def hop : GraphNode StubNode := .new ⟨3⟩ ⟨3, 1, ⟨"stub", .router, .passes⟩⟩ .default

theorem circle_reachable : circle.Reachable := .edit (.allowFeedbackEdge ⟨2⟩ ⟨0⟩) (stubGraph_reachable _ _)

theorem circle_noCycle : circle.NoCycle :=
  noCycle_of_detectCycle circle_reachable.wellFormed (.refl _) (show circle.detectCycle circle.nodeIds 3 = some none from rfl)

theorem live_edits_noCycle_iff_circle :
    (∀ afterId newNode, newNode.id ∉ circle.nodes → (circle.insertAfter afterId newNode).2 = .ok () →
      ((circle.insertAfter afterId newNode).1.NoCycle ↔ ∀ target, circle.Joins afterId target →
        (afterId, newNode.id) ∉ circle.allowedFeedbackEdges → (newNode.id, target) ∉ circle.allowedFeedbackEdges →
          ¬ Relation.ReflTransGen circle.Checked target afterId) ∧
      (¬ (circle.insertAfter afterId newNode).1.NoCycle → ∃ target, circle.Joins afterId target ∧
        (afterId, target) ∈ circle.allowedFeedbackEdges)) ∧
    ∀ id g' removed, circle.removeAndReconnect id = (g', .ok removed) →
      (g'.NoCycle ↔ ∀ pred succ, circle.Joins pred id → circle.Joins id succ →
        (pred, succ) ∉ circle.allowedFeedbackEdges → ¬ Relation.ReflTransGen circle.Checked succ pred) ∧
      (¬ g'.NoCycle → ∃ pred succ, circle.Joins pred id ∧ circle.Joins id succ ∧
        ((pred, id) ∈ circle.allowedFeedbackEdges ∨ (id, succ) ∈ circle.allowedFeedbackEdges)) :=
  live_edits_noCycle_iff circle_reachable circle_noCycle

/-- The circle passes the cycle check. A node spliced into its last edge makes it a cycle, and so does a bridge
in place of its last node. -/
theorem circle_closes : circle.Reachable ∧ circle.NoCycle ∧
    (hop.id ∉ circle.nodes ∧ (circle.insertAfter ⟨2⟩ hop).2 = .ok () ∧ ¬ (circle.insertAfter ⟨2⟩ hop).1.NoCycle) ∧
    ∃ removed, (circle.removeAndReconnect ⟨2⟩).2 = .ok removed ∧ ¬ (circle.removeAndReconnect ⟨2⟩).1.NoCycle := by
  refine ⟨circle_reachable, circle_noCycle, ⟨by decide, rfl, fun h => ?_⟩, _, rfl, fun h => ?_⟩
  · have hfound : (circle.insertAfter ⟨2⟩ hop).1.detectCycle [⟨3⟩, ⟨2⟩, ⟨1⟩, ⟨0⟩] 4 =
        some (some [⟨3⟩, ⟨0⟩, ⟨1⟩, ⟨2⟩, ⟨3⟩]) := rfl
    have hnone := h [⟨3⟩, ⟨2⟩, ⟨1⟩, ⟨0⟩] 4 (.refl _) (Nat.le_refl _)
    rw [hfound] at hnone
    cases hnone
  · have hfound : (circle.removeAndReconnect ⟨2⟩).1.detectCycle [⟨1⟩, ⟨0⟩] 2 = some (some [⟨1⟩, ⟨0⟩, ⟨1⟩]) := rfl
    have hnone := h [⟨1⟩, ⟨0⟩] 2 (.refl _) (Nat.le_refl _)
    rw [hfound] at hnone
    cases hnone

end FlowGraph
end Nyarix
