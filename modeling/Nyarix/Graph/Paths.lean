import Nyarix.Graph.Validate
import Nyarix.Lib.Bfs

/-! Paths through a flow graph: the search for a path is a breadth-first search along the edges, and
the cycle check is exact. -/

namespace Nyarix
namespace FlowGraph
variable {M : Type}

def Joins (g : FlowGraph M) (a b : NodeId) : Prop := ∃ edge ∈ g.edges, edge.fromNode = a ∧ edge.toNode = b

/-- The same, and the cycle check does not pass over the edge. -/
def Checked (g : FlowGraph M) (a b : NodeId) : Prop := g.Joins a b ∧ (a, b) ∉ g.allowedFeedbackEdges

theorem mem_successors {g : FlowGraph M} {a b : NodeId} : b ∈ g.successors a ↔ g.Joins a b := by
  simp only [successors, edgesFrom, Joins, List.mem_map, List.mem_filter, decide_eq_true_eq]
  constructor
  · rintro ⟨edge, ⟨hedge, hfrom⟩, hto⟩
    exact ⟨edge, hedge, hfrom, hto⟩
  · rintro ⟨edge, hedge, hfrom, hto⟩
    exact ⟨edge, ⟨hedge, hfrom⟩, hto⟩

theorem isChain_successors {g : FlowGraph M} {path : List NodeId} :
    (path.IsChain fun a b => b ∈ g.successors a) ↔ path.IsChain g.Joins := by
  simp only [mem_successors]

theorem WellFormed.mem_of_joins {g : FlowGraph M} (hg : g.WellFormed) {a b : NodeId} (h : g.Joins a b) :
    a ∈ g.nodes ∧ b ∈ g.nodes := by
  obtain ⟨edge, hedge, rfl, rfl⟩ := h
  exact hg.endpoints edge hedge

variable {g : FlowGraph M} {a goal current : NodeId} {s : PathSearch} {depth : NodeId → Nat}

def unseen (g : FlowGraph M) (visited : Finset NodeId) : Nat := (g.nodeIds.toFinset \ visited).card

theorem unseen_insert (g : FlowGraph M) {visited : Finset NodeId} {v : NodeId} (hv : v ∈ g.nodes)
    (hnew : v ∉ visited) : g.unseen (insert v visited) + 1 = g.unseen visited := by
  have hmem : v ∈ g.nodeIds.toFinset \ visited :=
    Finset.mem_sdiff.mpr ⟨List.mem_toFinset.mpr (AList.mem_keys.mp hv), hnew⟩
  rw [unseen, unseen, Finset.sdiff_insert, Finset.card_erase_of_mem hmem]
  exact Nat.sub_add_cancel (Finset.card_pos.mpr ⟨v, hmem⟩)

theorem lookup_insert_update (m : HashMap NodeId NodeId) (k v : NodeId) :
    (m.insert k v).lookup = Function.update m.lookup k (some v) := by
  funext k'
  by_cases hk : k' = k
  · rw [hk, AList.lookup_insert, Function.update_self]
  · rw [AList.lookup_insert_ne hk, Function.update_of_ne hk]

theorem scan_cases (hg : g.WellFormed) {neighbors : List NodeId} (hsub : neighbors ⊆ g.successors current)
    (h : Bfs.Layers g.successors a s.visited (current :: s.queue) s.predecessor.lookup depth)
    (hgoal : goal ∉ s.visited) :
    (∃ s' depth', neighbors.foldlM (discover current goal) s = .ok s' ∧
      Bfs.Layers g.successors a s'.visited (current :: s'.queue) s'.predecessor.lookup depth' ∧
      goal ∉ s'.visited ∧ s.visited ⊆ s'.visited ∧ (∀ v ∈ neighbors, v ∈ s'.visited) ∧
      g.unseen s'.visited + s'.queue.length = g.unseen s.visited + s.queue.length) ∨
    ∃ predecessor visited queue depth', neighbors.foldlM (discover current goal) s = .error predecessor ∧
      Bfs.Layers g.successors a visited queue predecessor.lookup depth' ∧ goal ∈ visited := by
  induction neighbors generalizing s depth with
  | nil => exact .inl ⟨s, depth, rfl, h, hgoal, Finset.Subset.refl _, List.forall_mem_nil _, rfl⟩
  | cons next neighbors ih =>
    have hnext : next ∈ g.successors current := hsub List.mem_cons_self
    have hrest : neighbors ⊆ g.successors current := fun v hv => hsub (List.mem_cons_of_mem _ hv)
    rw [List.foldlM_cons]
    by_cases hseen : next ∈ s.visited
    · have hstep : discover current goal s next = .ok s := if_pos hseen
      rw [hstep]
      rcases ih hrest h hgoal with ⟨s', depth', hfold, hlayers, hgoal', hmono, hall, hcount⟩ | hfound
      · exact .inl ⟨s', depth', hfold, hlayers, hgoal', hmono,
          List.forall_mem_cons.mpr ⟨hmono hseen, hall⟩, hcount⟩
      · exact .inr hfound
    · have hlayers := h.discover hnext hseen
      rw [← lookup_insert_update] at hlayers
      by_cases hlast : next = goal
      · -- the search stops as soon as it comes upon the goal
        have hstep : discover current goal s next = .error (s.predecessor.insert next current) := by
          rw [discover, if_neg hseen, if_pos hlast]
        rw [hstep]
        exact .inr ⟨_, _, _, _, rfl, hlayers, hlast ▸ Finset.mem_insert_self next s.visited⟩
      · have hstep : discover current goal s next =
            .ok ⟨insert next s.visited, s.queue ++ [next], s.predecessor.insert next current⟩ := by
          rw [discover, if_neg hseen, if_neg hlast]
        rw [hstep]
        have hgoal₁ : goal ∉ insert next s.visited := fun hmem =>
          hgoal (Finset.mem_of_mem_insert_of_ne hmem (Ne.symm hlast))
        -- what the queue gains is no longer unseen
        have hcount₁ := g.unseen_insert (hg.mem_of_joins (mem_successors.mp hnext)).2 hseen
        rcases ih (s := ⟨insert next s.visited, s.queue ++ [next], s.predecessor.insert next current⟩) hrest hlayers
          hgoal₁ with ⟨s', depth', hfold, hlayers', hgoal', hmono, hall, hcount⟩ | hfound
        · refine .inl ⟨s', depth', hfold, hlayers', hgoal', (Finset.subset_insert _ _).trans hmono,
            List.forall_mem_cons.mpr ⟨hmono (Finset.mem_insert_self _ _), hall⟩, ?_⟩
          rw [hcount]
          dsimp only
          rw [List.length_append, List.length_singleton]
          omega
        · exact .inr hfound

/-- With fuel for every vertex the search finds the goal, or there is no way to it. -/
theorem searchPath_cases (hg : g.WellFormed) {fuel : Nat}
    (h : Bfs.Layers g.successors a s.visited s.queue s.predecessor.lookup depth) (hgoal : goal ∉ s.visited)
    (hfuel : g.unseen s.visited + s.queue.length ≤ fuel) :
    (g.searchPath goal fuel s = some none ∧ ¬ Relation.ReflTransGen (fun b c => c ∈ g.successors b) a goal) ∨
    ∃ predecessor visited queue depth', g.searchPath goal fuel s = some (some predecessor) ∧
      Bfs.Layers g.successors a visited queue predecessor.lookup depth' ∧ goal ∈ visited := by
  induction fuel generalizing s depth with
  | zero =>
    have hqueue : s.queue = [] := List.eq_nil_of_length_eq_zero (by omega)
    rw [hqueue] at h
    refine .inl ⟨?_, fun hreach => hgoal (h.exhausted hreach)⟩
    unfold searchPath
    rw [hqueue]
  | succ fuel ih =>
    cases hqueue : s.queue with
    | nil =>
      rw [hqueue] at h
      refine .inl ⟨?_, fun hreach => hgoal (h.exhausted hreach)⟩
      unfold searchPath
      rw [hqueue]
    | cons current queue =>
      rw [hqueue] at h
      have hcount : g.unseen s.visited + (queue.length + 1) ≤ fuel + 1 := by
        rw [hqueue, List.length_cons] at hfuel
        exact hfuel
      unfold searchPath
      rw [hqueue]
      dsimp only
      cases hadjacent : g.adjacency.lookup current with
      | none =>
        have hnone : g.successors current = [] := by
          have hsucc := adjacency_getD hg current
          rw [hadjacent] at hsucc
          exact hsucc.symm
        -- nothing comes after the vertex under way
        have hpop := h.pop fun v hv => absurd (hnone ▸ hv) List.not_mem_nil
        exact ih (s := { s with queue := queue }) hpop hgoal (by dsimp only; omega)
      | some neighbors =>
        have hneighbors : neighbors = g.successors current := by
          have hsucc := adjacency_getD hg current
          rw [hadjacent] at hsucc
          exact hsucc
        dsimp only
        have hsub : neighbors ⊆ g.successors current := fun v hv => hneighbors ▸ hv
        rcases scan_cases hg (s := { s with queue := queue }) hsub h hgoal with
          ⟨s', depth', hfold, hlayers, hgoal', -, hall, hcount'⟩ | ⟨predecessor, visited, queue', depth', hfold, hfound⟩
        · -- its neighbours are all found, and the goal is not among them
          have hpop := hlayers.pop (hneighbors ▸ hall)
          have hmore := ih hpop hgoal' (by dsimp only at hcount'; omega)
          rw [hfold]
          exact hmore
        · rw [hfold]
          exact .inr ⟨predecessor, visited, queue', depth', rfl, hfound⟩

theorem searchPath_mono {fuel fuel' : Nat} (hfuel : fuel ≤ fuel') {r : Option (HashMap NodeId NodeId)}
    (hr : g.searchPath goal fuel s = some r) : g.searchPath goal fuel' s = some r := by
  induction fuel generalizing fuel' s with
  | zero =>
    cases hqueue : s.queue with
    | nil =>
      unfold searchPath at hr ⊢
      rw [hqueue] at hr ⊢
      exact hr
    | cons current queue =>
      unfold searchPath at hr
      rw [hqueue] at hr
      cases hr
  | succ fuel ih =>
    obtain ⟨fuel', rfl⟩ : ∃ n, fuel' = n + 1 := ⟨fuel' - 1, by omega⟩
    have hle : fuel ≤ fuel' := Nat.le_of_succ_le_succ hfuel
    unfold searchPath at hr ⊢
    cases hqueue : s.queue with
    | nil =>
      rw [hqueue] at hr
      exact hr
    | cons current queue =>
      rw [hqueue] at hr
      dsimp only at hr ⊢
      cases hadjacent : g.adjacency.lookup current with
      | none =>
        rw [hadjacent] at hr
        exact ih hle hr
      | some neighbors =>
        rw [hadjacent] at hr
        dsimp only at hr ⊢
        cases hfold : neighbors.foldlM (discover current goal) { s with queue := queue } with
        | error predecessor =>
          rw [hfold] at hr
          exact hr
        | ok s' =>
          rw [hfold] at hr
          exact ih hle hr

theorem reconstructPath_of_traced {predecessor : HashMap NodeId NodeId} {v : NodeId} {path : List NodeId}
    (h : Bfs.Traced predecessor.lookup a v path) (rest : List NodeId) {fuel : Nat} (hfuel : path.length ≤ fuel + 1) :
    reconstructPath predecessor a fuel v (rest ++ [v]) = some (.returned (path ++ rest.reverse)) := by
  induction h generalizing rest fuel with
  | start =>
    unfold reconstructPath
    rw [if_pos rfl, List.reverse_append, List.reverse_singleton]
  | @found u v path hpath hpred hv ih =>
    have hpos : 0 < path.length := hpath.length_pos
    rw [List.length_append, List.length_singleton] at hfuel
    obtain ⟨fuel, rfl⟩ : ∃ n, fuel = n + 1 := ⟨fuel - 1, by omega⟩
    have hle : path.length ≤ fuel + 1 := by omega
    have hback := ih (rest ++ [v]) hle
    unfold reconstructPath
    rw [if_neg hv]
    dsimp only
    rw [hpred]
    dsimp only
    rw [hback, List.reverse_append, List.reverse_singleton, List.append_assoc]

theorem reconstructPath_mono {predecessor : HashMap NodeId NodeId} {fuel fuel' : Nat} (hfuel : fuel ≤ fuel')
    {v : NodeId} {path : List NodeId} {r : Unwind (List NodeId)}
    (hr : reconstructPath predecessor a fuel v path = some r) : reconstructPath predecessor a fuel' v path = some r := by
  induction fuel generalizing fuel' v path with
  | zero =>
    unfold reconstructPath at hr ⊢
    split_ifs at hr ⊢ with hv
    exact hr
  | succ fuel ih =>
    obtain ⟨fuel', rfl⟩ : ∃ n, fuel' = n + 1 := ⟨fuel' - 1, by omega⟩
    unfold reconstructPath at hr ⊢
    split_ifs at hr ⊢ with hv
    · exact hr
    · dsimp only at hr ⊢
      cases hlookup : predecessor.lookup v with
      | none =>
        rw [hlookup] at hr
        exact hr
      | some previous =>
        rw [hlookup] at hr
        exact ih (Nat.le_of_succ_le_succ hfuel) hr

theorem findPath_mono {fuel fuel' : Nat} (hfuel : fuel ≤ fuel') {b : NodeId} {r : Unwind (Option (List NodeId))}
    (hr : g.findPath fuel a b = some r) : g.findPath fuel' a b = some r := by
  unfold findPath at hr ⊢
  split_ifs at hr ⊢
  · exact hr
  · exact hr
  · cases hsearch : g.searchPath b fuel ⟨{a}, [a], ∅⟩ with
    | none =>
      rw [hsearch] at hr
      cases hr
    | some found =>
      rw [searchPath_mono hfuel hsearch]
      rw [hsearch] at hr
      cases found with
      | none => exact hr
      | some predecessor =>
        dsimp only at hr ⊢
        cases hback : reconstructPath predecessor a fuel b [b] with
        | none =>
          rw [hback] at hr
          cases hr
        | some result =>
          rw [reconstructPath_mono hfuel hback]
          rw [hback] at hr
          exact hr

/-- What `find_path` returns: a path with no detour and as few hops as any, or nothing if there is no
way. -/
structure Shortest (g : FlowGraph M) (a b : NodeId) (path : List NodeId) : Prop where
  head : path.head? = some a
  last : path.getLast? = some b
  chain : path.IsChain g.Joins
  nodup : path.Nodup
  fewest : ∀ other : List NodeId, other.head? = some a → other.getLast? = some b → other.IsChain g.Joins →
    path.length ≤ other.length

theorem shortest_self (a : NodeId) : g.Shortest a a [a] where
  head := rfl
  last := rfl
  chain := List.isChain_singleton a
  nodup := List.nodup_singleton a
  fewest other hhead _ _ := by
    cases other with
    | nil => cases hhead
    | cons b other => exact Nat.succ_le_succ (Nat.zero_le _)

theorem shortest_of_layers {visited : Finset NodeId} {queue : List NodeId} {predecessor : HashMap NodeId NodeId}
    {b : NodeId} (h : Bfs.Layers g.successors a visited queue predecessor.lookup depth) (hb : b ∈ visited) :
    ∃ path, Bfs.Traced predecessor.lookup a b path ∧ g.Shortest a b path := by
  obtain ⟨path, htraced, hlength, hhead, hlast, hchain, hnodup, -⟩ := h.exists_traced hb
  refine ⟨path, htraced, hhead, hlast, isChain_successors.mp hchain, hnodup, fun other hhead' hlast' hchain' => ?_⟩
  have hwalk := Bfs.walk_of_isChain hhead' hlast' (isChain_successors.mpr hchain')
  have hle := h.shortest b hb _ hwalk
  have hpos : 0 < other.length := List.length_pos_of_mem (List.mem_of_mem_head? hhead')
  omega

theorem Shortest.length_le (hg : g.WellFormed) (ha : a ∈ g.nodes) {b : NodeId} {path : List NodeId}
    (h : g.Shortest a b path) : path.length ≤ g.nodeIds.length := by
  have hpresent : ∀ n ∈ path, n ∈ g.nodes := by
    refine h.chain.induction (· ∈ g.nodes) path (fun _ _ hjoins _ => (hg.mem_of_joins hjoins).2) fun hne => ?_
    have hhead := h.head
    rw [List.head?_eq_some_head hne] at hhead
    rw [Option.some.inj hhead]
    exact ha
  exact (List.subperm_of_subset h.nodup fun n hn => AList.mem_keys.mp (hpresent n hn)).length_le

theorem WellFormed.findPath_returns (hwf : g.WellFormed) (a b : NodeId) : ∃ result,
    (∀ fuel, g.nodeIds.length ≤ fuel → g.findPath fuel a b = some (.returned result)) ∧
      (result.isSome ↔ a ∈ g.nodes ∧ b ∈ g.nodes ∧ Relation.ReflTransGen g.Joins a b) ∧
      ∀ path, result = some path → g.Shortest a b path := by
  have hmono : ∀ {result}, g.findPath g.nodeIds.length a b = some (.returned result) → ∀ fuel,
      g.nodeIds.length ≤ fuel → g.findPath fuel a b = some (.returned result) :=
    fun hresult fuel hfuel => findPath_mono hfuel hresult
  by_cases hpresent : a ∈ g.nodes ∧ b ∈ g.nodes
  swap
  · refine ⟨none, hmono ?_, iff_of_false Bool.false_ne_true fun h => hpresent ⟨h.1, h.2.1⟩, fun path h => by cases h⟩
    rw [findPath, if_pos (by tauto)]
  obtain ⟨ha, hb⟩ := hpresent
  have hboth : ¬ (a ∉ g.nodes ∨ b ∉ g.nodes) := by tauto
  by_cases hab : a = b
  · subst hab
    refine ⟨some [a], hmono ?_, iff_of_true rfl ⟨ha, ha, .refl⟩, ?_⟩
    · rw [findPath, if_neg hboth, if_pos rfl]
    · rintro path ⟨⟩
      exact shortest_self a
  -- fuel for every node is fuel for `a` in the queue and all that is unseen
  have hcount : g.unseen {a} + 1 ≤ g.nodeIds.length := by
    have hinsert := g.unseen_insert ha (Finset.notMem_empty a)
    rw [Finset.insert_empty] at hinsert
    rw [hinsert, unseen, Finset.sdiff_empty]
    exact List.toFinset_card_le _
  have hstart : Bfs.Layers g.successors a {a} [a] (AList.lookup · (∅ : HashMap NodeId NodeId)) fun _ => 0 :=
    Bfs.layers_start g.successors a
  rcases searchPath_cases hwf (s := ⟨{a}, [a], ∅⟩) hstart (fun h => hab (Finset.mem_singleton.mp h).symm) hcount with
    ⟨hnone, hno⟩ | ⟨predecessor, visited, queue, depth, hfound, hlayers, hgoal⟩
  · simp only [mem_successors] at hno
    refine ⟨none, hmono ?_, iff_of_false Bool.false_ne_true fun h => hno h.2.2, fun path h => by cases h⟩
    rw [findPath, if_neg hboth, if_neg hab, hnone]
  · obtain ⟨path, htraced, hshortest⟩ := shortest_of_layers hlayers hgoal
    have hlength := hshortest.length_le hwf ha
    have hback := reconstructPath_of_traced htraced [] (hlength.trans (Nat.le_succ _))
    rw [List.nil_append, List.reverse_nil, List.append_nil] at hback
    have hreach : Relation.ReflTransGen g.Joins a b := by
      have hwalk := Bfs.walk_of_isChain hshortest.head hshortest.last (isChain_successors.mpr hshortest.chain)
      have hsteps := Bfs.reflTransGen_of_walk hwalk
      simpa only [mem_successors] using hsteps
    refine ⟨some path, hmono ?_, iff_of_true rfl ⟨ha, hb, hreach⟩, ?_⟩
    · rw [findPath, if_neg hboth, if_neg hab, hfound]
      dsimp only
      rw [hback]
    · rintro _ ⟨⟩
      exact hshortest

/-- `find_path` returns a path exactly when there is one, and then a shortest one; it always returns. -/
theorem find_path_correct [Node M] (hg : g.Reachable) (a b : NodeId) : ∃ result,
    (∀ fuel, g.nodeIds.length ≤ fuel → g.findPath fuel a b = some (.returned result)) ∧
      (result.isSome ↔ a ∈ g.nodes ∧ b ∈ g.nodes ∧ Relation.ReflTransGen g.Joins a b) ∧
      ∀ path, result = some path → g.Shortest a b path :=
  hg.wellFormed.findPath_returns a b

theorem find_path_correct_relay : ∃ result,
    (∀ fuel, relay.nodeIds.length ≤ fuel → relay.findPath fuel ⟨0⟩ ⟨1⟩ = some (.returned result)) ∧
      (result.isSome ↔ ⟨0⟩ ∈ relay.nodes ∧ ⟨1⟩ ∈ relay.nodes ∧ Relation.ReflTransGen relay.Joins ⟨0⟩ ⟨1⟩) ∧
      ∀ path, result = some path → relay.Shortest ⟨0⟩ ⟨1⟩ path :=
  find_path_correct (stubGraph_reachable _ _) ⟨0⟩ ⟨1⟩

theorem WellFormed.checkedNeighbors_eq (hg : g.WellFormed) : (fun a b => b ∈ g.checkedNeighbors a) = g.Checked := by
  funext a b
  exact propext (mem_checkedNeighbors hg)

/-- `detect_cycle` returns a cycle exactly when the edges that are not allowed feedback have one; what
it returns is a way along them that ends where it began and repeats no other node. -/
theorem detect_cycle_correct [Node M] (hg : g.Reachable) {order : List NodeId} (horder : order.Perm g.nodeIds) : ∃ result,
    (∀ fuel, g.nodeIds.length ≤ fuel → g.detectCycle order fuel = some result) ∧
      (result = none ↔ ∀ n, ¬ Relation.TransGen g.Checked n n) ∧
      ∀ c, result = some c →
        2 ≤ c.length ∧ c.head? = c.getLast? ∧ c.IsChain g.Checked ∧ c.dropLast.Nodup := by
  have hwf := hg.wellFormed
  have hchecked := hwf.checkedNeighbors_eq
  rcases detectCycle_cases hwf horder (Nat.le_refl _) with ⟨hnone, hacyclic⟩ | ⟨c, hcycle, hclosed⟩
  · refine ⟨none, fun fuel hfuel => detectCycle_mono hfuel hnone, iff_of_true rfl fun n => ?_, fun c h => by cases h⟩
    have hno := hacyclic n
    rw [hchecked] at hno
    exact hno
  · refine ⟨some c, fun fuel hfuel => detectCycle_mono hfuel hcycle, iff_of_false (fun h => by cases h) fun hno => ?_, ?_⟩
    · refine hclosed.not_acyclic fun n => ?_
      rw [hchecked]
      exact hno n
    · rintro _ ⟨⟩
      have hchain := hclosed.chain
      rw [hchecked] at hchain
      exact ⟨hclosed.steps, hclosed.closes, hchain, hclosed.nodup⟩

theorem detect_cycle_correct_relay : ∃ result,
    (∀ fuel, relay.nodeIds.length ≤ fuel → relay.detectCycle relay.nodeIds fuel = some result) ∧
      (result = none ↔ ∀ n, ¬ Relation.TransGen relay.Checked n n) ∧
      ∀ c, result = some c →
        2 ≤ c.length ∧ c.head? = c.getLast? ∧ c.IsChain relay.Checked ∧ c.dropLast.Nodup :=
  detect_cycle_correct (stubGraph_reachable _ _) (.refl _)

theorem WellFormed.detectCycle_none (hg : g.WellFormed) {order : List NodeId} {fuel : Nat}
    (horder : order.Perm g.nodeIds) (hfuel : g.nodeIds.length ≤ fuel)
    (hacyclic : ∀ n, ¬ Relation.TransGen g.Checked n n) : g.detectCycle order fuel = some none := by
  rcases detectCycle_cases hg horder hfuel with ⟨hnone, -⟩ | ⟨c, -, hclosed⟩
  · exact hnone
  · refine absurd (fun n => ?_) hclosed.not_acyclic
    rw [hg.checkedNeighbors_eq]
    exact hacyclic n

theorem WellFormed.reachesAnExit_of_reaches (hg : g.WellFormed) {fuel : Nat} (hfuel : g.nodeIds.length ≤ fuel)
    {entry exit : NodeId} {exits : List NodeId} (hentry : entry ∈ g.nodes) (hmem : exit ∈ exits)
    (hexit : exit ∈ g.nodes) (hreach : Relation.ReflTransGen g.Joins entry exit) :
    g.reachesAnExit fuel entry exits = some (.returned true) := by
  induction exits with
  | nil => exact absurd hmem List.not_mem_nil
  | cons first exits ih =>
    obtain ⟨result, hresult, hsome, -⟩ := hg.findPath_returns entry first
    rw [reachesAnExit, hresult fuel hfuel]
    cases result with
    | some path => rfl
    | none =>
      refine ih ((List.mem_cons.mp hmem).resolve_left ?_)
      rintro rfl
      cases hsome.mpr ⟨hentry, hexit, hreach⟩

theorem WellFormed.validate_accepts [Node M] (hg : g.WellFormed) {order : List NodeId} {fuel : Nat}
    (horder : order.Perm g.nodeIds) (hfuel : g.nodeIds.length ≤ fuel) (hacyclic : ∀ n, ¬ Relation.TransGen g.Checked n n)
    (hentries : ∀ entry ∈ g.entryPoints, entry ∈ g.nodes ∧
      ∃ exit ∈ g.exitPoints, exit ∈ g.nodes ∧ Relation.ReflTransGen g.Joins entry exit)
    (horphans : ∀ id ∈ g.nodes, g.orphaned id = false) : g.validate order fuel = some (.returned (.ok ())) := by
  have hnone := hg.detectCycle_none horder hfuel hacyclic
  have hchecked : ∀ entries ⊆ g.entryPoints, g.checkEntries fuel entries = some (.returned (.ok ())) := by
    intro entries hsub
    induction entries with
    | nil => rfl
    | cons entry entries ih =>
      obtain ⟨hentry, exit, hmem, hexit, hreach⟩ := hentries entry (hsub List.mem_cons_self)
      rw [checkEntries, hg.reachesAnExit_of_reaches hfuel hentry hmem hexit hreach]
      exact ih fun e he => hsub (List.mem_cons_of_mem _ he)
  have hfind : order.find? g.orphaned = none := List.find?_eq_none.mpr fun id hid => by
    rw [horphans id (AList.mem_keys.mpr (horder.subset hid))]
    exact Bool.false_ne_true
  rw [validate, hnone]
  dsimp only
  rw [hchecked _ (List.Subset.refl _)]
  dsimp only
  rw [hfind]

end FlowGraph
end Nyarix
