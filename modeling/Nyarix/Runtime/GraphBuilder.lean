import Nyarix.Graph.Splicing

/-! Building a flow graph from a profile: a chain of the modules that the profile's stack names. -/

namespace Nyarix

structure ProfileConfig where
  stack : List String

inductive BuildError where
  | unknownModule (name : String)
  | graph (error : GraphError)
  deriving DecidableEq, Repr

def FlowGraph.markEnds {M : Type} (g : FlowGraph M) (nodeIds : List NodeId) : FlowGraph M :=
  let g := match nodeIds.head? with
    | some first => g.markEntryPoint first
    | none => g
  match nodeIds.getLast? with
  | some last => g.markExitPoint last
  | none => g

section Model
variable {M R : Type} [Node M] (resolve : R → String → R × Option (ArcNode M)) (newId : Nat → NodeId)

/-- One node for each name of the stack, up to the first that does not resolve. A call leaves `resolve`
in a new state; `newId` numbers the nodes. -/
def addStack : List String → R → FlowGraph M → List NodeId → Except BuildError (FlowGraph M × List NodeId)
  | [], _, g, nodeIds => .ok (g, nodeIds)
  | name :: stack, r, g, nodeIds =>
    match resolve r name with
    | (_, none) => .error (.unknownModule name)
    | (r, some arc) =>
      let node := GraphNode.new (newId nodeIds.length) arc .default
      addStack stack r (g.addNode node) (nodeIds ++ [node.id])

/-- Build the chain, mark its ends and validate it. The order of the node map and the fuel of the
loops are those of `validate`. -/
def buildFromProfile (profile : ProfileConfig) (r : R) (order : FlowGraph M → List NodeId) (fuel : Nat) :
    Option (Unwind (Except BuildError (FlowGraph M))) :=
  match addStack resolve newId profile.stack r .new [] with
  | .error error => some (.returned (.error error))
  | .ok (g, nodeIds) =>
    match g.connectAll (nodeIds.zip nodeIds.tail) with
    | (_, .error error) => some (.returned (.error (.graph error)))
    | (g, .ok ()) =>
      let g := g.markEnds nodeIds
      match g.validate (order g) fuel with
      | none => none
      | some (.panicked reason) => some (.panicked reason)
      | some (.returned (.error error)) => some (.returned (.error (.graph error)))
      | some (.returned (.ok ())) => some (.returned (.ok g))

omit [Node M] in
def resolved : R → List String → List (Option (ArcNode M))
  | _, [] => []
  | r, name :: stack => (resolve r name).2 :: resolved (resolve r name).1 stack

end Model

section Chain
variable {M R : Type} [Node M] {newId : Nat → NodeId} {modules : List (ArcNode M)} {g : FlowGraph M}

structure Stacked (newId : Nat → NodeId) (modules : List (ArcNode M)) (g : FlowGraph M) : Prop where
  node : ∀ k arc, modules[k]? = some arc → g.node (newId k) = some (.new (newId k) arc .default)
  nodes : ∀ id, id ∈ g.nodes ↔ ∃ k < modules.length, id = newId k
  edges : g.edges = []
  allowedFeedbackEdges : g.allowedFeedbackEdges = ∅
  entryPoints : ∀ id, id ∈ g.entryPoints ↔ ∃ k arc, modules[k]? = some arc ∧ id = newId k ∧ Node.nodeType arc.module = .source
  exitPoints : ∀ id, id ∈ g.exitPoints ↔ ∃ k arc, modules[k]? = some arc ∧ id = newId k ∧ Node.nodeType arc.module = .sink

/-- A chain of modules, in the order of the stack. A source or a sink among them is an entry or exit
point, wherever it stands. -/
structure ChainOf (newId : Nat → NodeId) (modules : List (ArcNode M)) (g : FlowGraph M) : Prop where
  node : ∀ k arc, modules[k]? = some arc → g.node (newId k) = some (.new (newId k) arc .default)
  nodes : g.nodeIds.Perm ((List.range modules.length).map newId)
  edges : g.edges = (List.range (modules.length - 1)).map fun k => ⟨newId k, newId (k + 1), .sequential, none⟩
  allowedFeedbackEdges : g.allowedFeedbackEdges = ∅
  entryPoints : ∀ id, id ∈ g.entryPoints ↔ ∃ k arc, modules[k]? = some arc ∧ id = newId k ∧
    (k = 0 ∨ Node.nodeType arc.module = .source)
  exitPoints : ∀ id, id ∈ g.exitPoints ↔ ∃ k arc, modules[k]? = some arc ∧ id = newId k ∧
    (k + 1 = modules.length ∨ Node.nodeType arc.module = .sink)

theorem stacked_new : Stacked newId ([] : List (ArcNode M)) .new where
  node k arc h := by cases h
  nodes id := iff_of_false (AList.notMem_empty id) fun ⟨k, hk, _⟩ => Nat.not_lt_zero k hk
  edges := rfl
  allowedFeedbackEdges := rfl
  entryPoints id := iff_of_false List.not_mem_nil fun ⟨k, arc, h, _⟩ => by cases h
  exitPoints id := iff_of_false List.not_mem_nil fun ⟨k, arc, h, _⟩ => by cases h

theorem exists_concat {α : Type*} {p : Nat → α → Prop} {l : List α} {a : α} :
    (∃ k b, (l ++ [a])[k]? = some b ∧ p k b) ↔ (∃ k b, l[k]? = some b ∧ p k b) ∨ p l.length a := by
  constructor
  · rintro ⟨k, b, hk, hp⟩
    rw [List.getElem?_append] at hk
    split_ifs at hk with hlt
    · exact .inl ⟨k, b, hk, hp⟩
    · rw [List.getElem?_singleton] at hk
      split_ifs at hk with hlast
      have hlen : k = l.length := by omega
      rw [hlen] at hp
      exact .inr (Option.some.inj hk ▸ hp)
  · rintro (⟨k, b, hk, hp⟩ | hp)
    · have hlt := (List.getElem?_eq_some_iff.mp hk).1
      exact ⟨k, b, (List.getElem?_append_left hlt).trans hk, hp⟩
    · exact ⟨l.length, a, List.getElem?_concat_length, hp⟩

theorem Stacked.push (hnew : Set.InjOn newId (Set.Iio (modules.length + 1))) (h : Stacked newId modules g) (arc : ArcNode M) :
    Stacked newId (modules ++ [arc]) (g.addNode (.new (newId modules.length) arc .default)) where
  node k arc' hk := by
    rw [FlowGraph.node_addNode]
    rw [List.getElem?_append] at hk
    split_ifs at hk with hlt
    · have hne : newId k ≠ newId modules.length := fun heq =>
        Nat.ne_of_lt hlt (hnew (Nat.lt_succ_of_lt hlt) (Nat.lt_succ_self _) heq)
      exact (if_neg hne).trans (h.node k arc' hk)
    · rw [List.getElem?_singleton] at hk
      split_ifs at hk with hlast
      have hlen : k = modules.length := by omega
      rw [hlen, Option.some.inj hk]
      exact if_pos rfl
  nodes id := by
    rw [FlowGraph.mem_addNode, h.nodes, List.length_append, List.length_singleton]
    constructor
    · rintro (rfl | ⟨k, hk, hid⟩)
      · exact ⟨modules.length, Nat.lt_succ_self _, rfl⟩
      · exact ⟨k, Nat.lt_succ_of_lt hk, hid⟩
    · rintro ⟨k, hk, rfl⟩
      rcases Nat.lt_succ_iff_lt_or_eq.mp hk with hlt | rfl
      · exact .inr ⟨k, hlt, rfl⟩
      · exact .inl rfl
  edges := by rw [FlowGraph.addNode_edges, h.edges]
  allowedFeedbackEdges := by rw [FlowGraph.addNode_allowedFeedbackEdges, h.allowedFeedbackEdges]
  entryPoints id := by
    rw [FlowGraph.mem_addNode_entryPoints, h.entryPoints, exists_concat]
    rfl
  exitPoints id := by
    rw [FlowGraph.mem_addNode_exitPoints, h.exitPoints, exists_concat]
    rfl

theorem addStack_cases (resolve : R → String → R × Option (ArcNode M)) (stack : List String) (r : R)
    (hnew : Set.InjOn newId (Set.Iio (modules.length + stack.length))) (hwf : g.WellFormed) (h : Stacked newId modules g) :
    (∃ more g', resolved resolve r stack = more.map some ∧ g'.WellFormed ∧ Stacked newId (modules ++ more) g' ∧
      addStack resolve newId stack r g ((List.range modules.length).map newId) =
        .ok (g', (List.range (modules ++ more).length).map newId)) ∨
    ∃ (k : Nat) (name : String), stack[k]? = some name ∧ (resolved resolve r stack)[k]? = some none ∧
      (∀ j < k, (resolved resolve r stack)[j]? ≠ some none) ∧
      addStack resolve newId stack r g ((List.range modules.length).map newId) = .error (.unknownModule name) := by
  induction stack generalizing r g modules with
  | nil =>
    refine .inl ⟨[], g, rfl, hwf, ?_, ?_⟩
    · rwa [List.append_nil]
    · rw [addStack, List.append_nil]
  | cons name stack ih =>
    rw [resolved, addStack]
    rcases hname : resolve r name with ⟨r', _ | arc⟩
    · -- the loop returns at the first name that does not resolve
      exact .inr ⟨0, name, rfl, rfl, fun j hj => absurd hj (Nat.not_lt_zero j), rfl⟩
    · dsimp only
      rw [List.length_map, List.length_range]
      have hids : (List.range modules.length).map newId ++ [newId modules.length] =
          (List.range (modules ++ [arc]).length).map newId := by
        rw [List.length_append, List.length_singleton, List.range_succ, List.map_append]
        rfl
      have hmore : Set.InjOn newId (Set.Iio ((modules ++ [arc]).length + stack.length)) := by
        rwa [List.length_append, List.length_singleton, Nat.add_assoc, Nat.add_comm 1]
      have hnext : Set.InjOn newId (Set.Iio (modules.length + 1)) := hnew.mono fun k hk => by
        rw [Set.mem_Iio] at hk ⊢
        rw [List.length_cons]
        omega
      rcases ih r' hmore (hwf.addNode _) (h.push hnext arc) with
        ⟨more, g', hmore, hwf', hstacked, hadd⟩ | ⟨k, name', hk, hnone, hfirst, hadd⟩
      · refine .inl ⟨arc :: more, g', ?_, hwf', ?_, ?_⟩
        · rw [hmore, List.map_cons]
        · rwa [List.append_cons]
        · rw [List.append_cons modules arc more, ← hadd, ← hids]
          rfl
      · -- the name that does not resolve is one later, counted from here
        refine .inr ⟨k + 1, name', hk, hnone, fun j hj => ?_, ?_⟩
        · cases j with
          | zero => exact fun hcontra => by cases Option.some.inj hcontra
          | succ j => exact hfirst j (Nat.lt_of_succ_lt_succ hj)
        · rw [← hadd, ← hids]
          rfl

theorem map_bridgeEdge_zip_tail (newId : Nat → NodeId) (n : Nat) :
    (((List.range n).map newId).zip ((List.range n).map newId).tail).map FlowGraph.bridgeEdge =
      (List.range (n - 1)).map fun k => ⟨newId k, newId (k + 1), .sequential, none⟩ := by
  apply List.ext_getElem
  · simp only [List.length_map, List.length_zip, List.length_range, List.length_tail]
    omega
  · intro k hk hk'
    simp only [FlowGraph.bridgeEdge, List.getElem_map, List.getElem_zip, List.getElem_tail, List.getElem_range]

namespace ChainOf
variable (h : ChainOf newId modules g)
include h

theorem mem_nodes {id : NodeId} : id ∈ g.nodes ↔ ∃ k < modules.length, id = newId k := by
  have hmem : id ∈ g.nodes ↔ id ∈ g.nodeIds := AList.mem_keys
  rw [hmem, h.nodes.mem_iff, List.mem_map]
  simp only [List.mem_range, eq_comm]

theorem joins {a b : NodeId} : g.Joins a b ↔ ∃ k, k + 1 < modules.length ∧ a = newId k ∧ b = newId (k + 1) := by
  unfold FlowGraph.Joins
  rw [h.edges]
  constructor
  · rintro ⟨edge, hedge, rfl, rfl⟩
    obtain ⟨k, hk, rfl⟩ := List.mem_map.mp hedge
    have hlt := List.mem_range.mp hk
    exact ⟨k, by omega, rfl, rfl⟩
  · rintro ⟨k, hk, rfl, rfl⟩
    exact ⟨_, List.mem_map.mpr ⟨k, List.mem_range.mpr (by omega), rfl⟩, rfl, rfl⟩

theorem reaches {i j : Nat} (hij : i ≤ j) (hj : j < modules.length) :
    Relation.ReflTransGen g.Joins (newId i) (newId j) := by
  induction hij with
  | refl => exact .refl
  | @step j _ ih => exact (ih (Nat.lt_of_succ_lt hj)).tail (h.joins.mpr ⟨j, hj, rfl, rfl⟩)

theorem ascends (hnew : Set.InjOn newId (Set.Iio modules.length)) {a b : NodeId}
    (hab : Relation.TransGen g.Joins a b) : ∃ i j, i < j ∧ j < modules.length ∧ a = newId i ∧ b = newId j := by
  induction hab with
  | single hstep =>
    obtain ⟨k, hk, ha, hb⟩ := h.joins.mp hstep
    exact ⟨k, k + 1, Nat.lt_succ_self k, hk, ha, hb⟩
  | tail _ hstep ih =>
    obtain ⟨i, j, hij, hj, ha, hb⟩ := ih
    obtain ⟨k, hk, hb', hc⟩ := h.joins.mp hstep
    obtain rfl : j = k := hnew hj (Nat.lt_of_succ_lt hk) (hb.symm.trans hb')
    exact ⟨i, j + 1, Nat.lt_succ_of_lt hij, hk, ha, hc⟩

theorem path_eq (hnew : Set.InjOn newId (Set.Iio modules.length)) {path : List NodeId} {i : Nat}
    (hi : i < modules.length) (hchain : path.IsChain g.Joins) (hhead : path.head? = some (newId i)) :
    path = (List.range' i path.length).map newId ∧ i + path.length ≤ modules.length := by
  induction path generalizing i with
  | nil => cases hhead
  | cons a path ih =>
    obtain rfl := Option.some.inj hhead
    rw [List.length_cons, List.range'_succ, List.map_cons]
    cases path with
    | nil => exact ⟨rfl, hi⟩
    | cons b path =>
      obtain ⟨hstep, hrest⟩ := List.isChain_cons_cons.mp hchain
      obtain ⟨k, hk, hki, rfl⟩ := h.joins.mp hstep
      obtain rfl : i = k := hnew hi (Nat.lt_of_succ_lt hk) hki
      obtain ⟨heq, hle⟩ := ih hk hrest rfl
      exact ⟨congrArg (newId i :: ·) heq, by omega⟩

theorem validate (hnew : Set.InjOn newId (Set.Iio modules.length)) (hwf : g.WellFormed) {order : List NodeId}
    {fuel : Nat} (horder : order.Perm g.nodeIds) (hfuel : modules.length ≤ fuel) :
    g.validate order fuel = some (.returned (.ok ())) := by
  have hfuel' : g.nodeIds.length ≤ fuel := by
    rwa [h.nodes.length_eq, List.length_map, List.length_range]
  refine hwf.validate_accepts horder hfuel' (fun n hn => ?_) (fun entry hentry => ?_) fun id hid => ?_
  · obtain ⟨i, j, hij, hj, hi, hend⟩ :=
      h.ascends hnew (Relation.TransGen.mono (fun _ _ hchecked => hchecked.1) _ _ hn)
    exact Nat.ne_of_lt hij (hnew (hij.trans hj) hj (hi.symm.trans hend))
  · -- from wherever a source stands, the last node can be reached
    obtain ⟨k, arc, hk, rfl, -⟩ := (h.entryPoints entry).mp hentry
    have hlt := (List.getElem?_eq_some_iff.mp hk).1
    have hlast : modules.length - 1 < modules.length := by omega
    refine ⟨h.mem_nodes.mpr ⟨k, hlt, rfl⟩, newId (modules.length - 1), ?_, ?_, h.reaches (by omega) hlast⟩
    · exact (h.exitPoints _).mpr ⟨_, modules[modules.length - 1], List.getElem?_eq_getElem hlast, rfl, .inl (by omega)⟩
    · exact h.mem_nodes.mpr ⟨_, hlast, rfl⟩
  · obtain ⟨k, hk, rfl⟩ := h.mem_nodes.mp hid
    rw [FlowGraph.orphaned, decide_eq_false_iff_not]
    rintro ⟨hentry, -, hin, -⟩
    cases k with
    | zero => exact hentry ((h.entryPoints _).mpr ⟨0, modules[0], List.getElem?_eq_getElem hk, rfl, .inl rfl⟩)
    | succ k =>
      obtain ⟨edge, hedge, -, hto⟩ := h.joins.mpr ⟨k, hk, rfl, rfl⟩
      exact hin (List.any_eq_true.mpr ⟨edge, hedge, decide_eq_true hto⟩)

theorem findPath (hnew : Set.InjOn newId (Set.Iio modules.length)) (hwf : g.WellFormed) {fuel last : Nat}
    (hfuel : modules.length ≤ fuel) (hlast : modules.length = last + 1) :
    g.findPath fuel (newId 0) (newId last) = some (.returned (some ((List.range modules.length).map newId))) := by
  have hfuel' : g.nodeIds.length ≤ fuel := by
    rwa [h.nodes.length_eq, List.length_map, List.length_range]
  obtain ⟨result, hresult, hsome, hshortest⟩ := hwf.findPath_returns (newId 0) (newId last)
  have hreach := h.reaches (Nat.zero_le last) (by omega)
  obtain ⟨path, rfl⟩ := Option.isSome_iff_exists.mp
    (hsome.mpr ⟨h.mem_nodes.mpr ⟨0, by omega, rfl⟩, h.mem_nodes.mpr ⟨last, by omega, rfl⟩, hreach⟩)
  have hpath := hshortest path rfl
  obtain ⟨heq, hle⟩ := h.path_eq hnew (by omega) hpath.chain hpath.head
  have hend := hpath.last
  have hpos : 0 < path.length := List.length_pos_of_mem (List.mem_of_mem_head? hpath.head)
  rw [heq, List.getLast?_map, List.getLast?_range', if_neg (Nat.ne_of_gt hpos)] at hend
  have hlen : path.length = modules.length := by
    have hindex := hnew (Set.mem_Iio.mpr (by omega)) (Set.mem_Iio.mpr (by omega)) (Option.some.inj hend)
    omega
  rw [hresult fuel hfuel', heq, hlen, List.range_eq_range']

end ChainOf

structure MarksEnds {M : Type} (g : FlowGraph M) (nodeIds : List NodeId) (g' : FlowGraph M) : Prop where
  nodes : g'.nodes = g.nodes
  edges : g'.edges = g.edges
  allowedFeedbackEdges : g'.allowedFeedbackEdges = g.allowedFeedbackEdges
  entryPoints : ∀ id, id ∈ g'.entryPoints ↔ id ∈ g.entryPoints ∨ nodeIds.head? = some id
  exitPoints : ∀ id, id ∈ g'.exitPoints ↔ id ∈ g.exitPoints ∨ nodeIds.getLast? = some id

omit [Node M] in
theorem FlowGraph.marksEnds (g : FlowGraph M) (nodeIds : List NodeId) : MarksEnds g nodeIds (g.markEnds nodeIds) := by
  have hentry : ∀ (g : FlowGraph M) id, (g.markEntryPoint id).nodes = g.nodes ∧ (g.markEntryPoint id).edges = g.edges ∧
      (g.markEntryPoint id).allowedFeedbackEdges = g.allowedFeedbackEdges ∧
      (g.markEntryPoint id).exitPoints = g.exitPoints := by
    intro g id
    unfold markEntryPoint
    split_ifs <;> exact ⟨rfl, rfl, rfl, rfl⟩
  have hexit : ∀ (g : FlowGraph M) id, (g.markExitPoint id).nodes = g.nodes ∧ (g.markExitPoint id).edges = g.edges ∧
      (g.markExitPoint id).allowedFeedbackEdges = g.allowedFeedbackEdges ∧
      (g.markExitPoint id).entryPoints = g.entryPoints := by
    intro g id
    unfold markExitPoint
    split_ifs <;> exact ⟨rfl, rfl, rfl, rfl⟩
  cases nodeIds with
  | nil => exact ⟨rfl, rfl, rfl, fun id => by simp [markEnds], fun id => by simp [markEnds]⟩
  | cons first nodeIds =>
    have hlast : (first :: nodeIds).getLast? = some ((first :: nodeIds).getLast (List.cons_ne_nil _ _)) :=
      List.getLast?_eq_some_getLast _
    have hmark : g.markEnds (first :: nodeIds) =
        (g.markEntryPoint first).markExitPoint ((first :: nodeIds).getLast (List.cons_ne_nil _ _)) := by
      rw [markEnds, hlast]
      rfl
    obtain ⟨hnodes, hedges, hallowed, hexits⟩ := hentry g first
    obtain ⟨hnodes', hedges', hallowed', hentries⟩ :=
      hexit (g.markEntryPoint first) ((first :: nodeIds).getLast (List.cons_ne_nil _ _))
    rw [hmark]
    refine ⟨hnodes'.trans hnodes, hedges'.trans hedges, hallowed'.trans hallowed, fun id => ?_, fun id => ?_⟩
    · rw [hentries, mem_markEntryPoint, List.head?_cons, Option.some.injEq, @eq_comm _ id]
    · rw [mem_markExitPoint, hexits, hlast, Option.some.injEq, @eq_comm _ id]

omit [Node M] in
theorem FlowGraph.WellFormed.markEnds (hwf : g.WellFormed) (nodeIds : List NodeId) : (g.markEnds nodeIds).WellFormed := by
  unfold FlowGraph.markEnds
  cases nodeIds.head? <;> cases nodeIds.getLast?
  · exact hwf
  · exact hwf.markExitPoint _
  · exact hwf.markEntryPoint _
  · exact (hwf.markEntryPoint _).markExitPoint _

omit [Node M] in
theorem getElem?_ids (newId : Nat → NodeId) (modules : List (ArcNode M)) (k : Nat) (id : NodeId) :
    ((List.range modules.length).map newId)[k]? = some id ↔ ∃ arc, modules[k]? = some arc ∧ id = newId k := by
  simp only [List.getElem?_map, List.getElem?_eq_some_iff, Option.map_eq_some_iff, List.length_range,
    List.getElem_range]
  constructor
  · rintro ⟨_, ⟨hk, rfl⟩, rfl⟩
    exact ⟨modules[k], ⟨hk, rfl⟩, rfl⟩
  · rintro ⟨_, ⟨hk, rfl⟩, rfl⟩
    exact ⟨k, ⟨hk, rfl⟩, rfl⟩

theorem Stacked.chainOf (hnew : Set.InjOn newId (Set.Iio modules.length)) (hwf : g.WellFormed) (h : Stacked newId modules g)
    {nodeIds : List NodeId} (hids : nodeIds = (List.range modules.length).map newId) :
    ∃ g', g.connectAll (nodeIds.zip nodeIds.tail) = (g', .ok ()) ∧ (g'.markEnds nodeIds).WellFormed ∧
      ChainOf newId modules (g'.markEnds nodeIds) := by
  have hmem : ∀ id, id ∈ g.nodes ↔ id ∈ nodeIds := by
    intro id
    rw [h.nodes, hids, List.mem_map]
    simp only [List.mem_range, eq_comm]
  have hlen : nodeIds.length = modules.length := by rw [hids, List.length_map, List.length_range]
  have hpresent : ∀ pair ∈ nodeIds.zip nodeIds.tail, pair.1 ∈ g.nodes ∧ pair.2 ∈ g.nodes := by
    rintro ⟨a, b⟩ hpair
    obtain ⟨ha, hb⟩ := List.of_mem_zip hpair
    exact ⟨(hmem a).mpr ha, (hmem b).mpr (List.mem_of_mem_tail hb)⟩
  obtain ⟨adjacency, hconnect⟩ := FlowGraph.connectAll_of_mem g hpresent
  have hwf' := hwf.connectAll (nodeIds.zip nodeIds.tail)
  rw [hconnect] at hwf'
  refine ⟨_, hconnect, hwf'.markEnds nodeIds, ?_⟩
  have hmarks := FlowGraph.marksEnds { g with
    adjacency := adjacency
    edges := g.edges ++ (nodeIds.zip nodeIds.tail).map FlowGraph.bridgeEdge } nodeIds
  constructor
  · intro k arc hk
    rw [FlowGraph.node, hmarks.nodes]
    exact h.node k arc hk
  · rw [FlowGraph.nodeIds, hmarks.nodes, ← hids]
    have hnodup : nodeIds.Nodup := by
      rw [hids]
      exact List.nodup_range.map_on fun i hi j hj heq => hnew (List.mem_range.mp hi) (List.mem_range.mp hj) heq
    exact (List.perm_ext_iff_of_nodup g.nodes.nodupKeys hnodup).mpr fun id => AList.mem_keys.symm.trans (hmem id)
  · rw [hmarks.edges]
    dsimp only
    rw [h.edges, List.nil_append, hids, map_bridgeEdge_zip_tail]
  · rw [hmarks.allowedFeedbackEdges]
    exact h.allowedFeedbackEdges
  · intro id
    rw [hmarks.entryPoints, List.head?_eq_getElem?, hids, getElem?_ids, h.entryPoints]
    constructor
    · rintro (⟨k, arc, hk, hid, htype⟩ | ⟨arc, hk, hid⟩)
      · exact ⟨k, arc, hk, hid, .inr htype⟩
      · exact ⟨0, arc, hk, hid, .inl rfl⟩
    · rintro ⟨k, arc, hk, hid, rfl | htype⟩
      · exact .inr ⟨arc, hk, hid⟩
      · exact .inl ⟨k, arc, hk, hid, htype⟩
  · intro id
    rw [hmarks.exitPoints, List.getLast?_eq_getElem?, hlen, hids, getElem?_ids, h.exitPoints]
    constructor
    · rintro (⟨k, arc, hk, hid, htype⟩ | ⟨arc, hk, hid⟩)
      · exact ⟨k, arc, hk, hid, .inr htype⟩
      · have hlt := (List.getElem?_eq_some_iff.mp hk).1
        exact ⟨modules.length - 1, arc, hk, hid, .inl (by omega)⟩
    · rintro ⟨k, arc, hk, hid, hlast | htype⟩
      · obtain rfl : k = modules.length - 1 := by omega
        exact .inr ⟨arc, hk, hid⟩
      · exact .inl ⟨k, arc, hk, hid, htype⟩

omit [Node M] in
theorem length_resolved (resolve : R → String → R × Option (ArcNode M)) (r : R) (stack : List String) :
    (resolved resolve r stack).length = stack.length := by
  induction stack generalizing r with
  | nil => rfl
  | cons name stack ih => exact congrArg (· + 1) (ih _)

theorem buildFromProfile_cases (resolve : R → String → R × Option (ArcNode M)) (profile : ProfileConfig) (r : R)
    (hnew : Set.InjOn newId (Set.Iio profile.stack.length)) {order : FlowGraph M → List NodeId}
    (horder : ∀ g, (order g).Perm g.nodeIds) {fuel : Nat} (hfuel : profile.stack.length ≤ fuel) :
    (∃ modules g, resolved resolve r profile.stack = modules.map some ∧ modules.length = profile.stack.length ∧
      g.WellFormed ∧ ChainOf newId modules g ∧
      buildFromProfile resolve newId profile r order fuel = some (.returned (.ok g))) ∨
    ∃ (k : Nat) (name : String), profile.stack[k]? = some name ∧ (resolved resolve r profile.stack)[k]? = some none ∧
      (∀ j < k, (resolved resolve r profile.stack)[j]? ≠ some none) ∧
      buildFromProfile resolve newId profile r order fuel = some (.returned (.error (.unknownModule name))) := by
  unfold buildFromProfile
  rcases addStack_cases resolve profile.stack r (by rwa [List.length_nil, Nat.zero_add]) FlowGraph.wellFormed_new
    stacked_new with
    ⟨modules, g, hmodules, hwf, hstacked, hadd⟩ | ⟨k, name, hk, hnone, hfirst, hadd⟩
  · rw [List.nil_append] at hstacked hadd
    have hlen : modules.length = profile.stack.length := by
      rw [← length_resolved resolve r profile.stack, hmodules, List.length_map]
    rw [← hlen] at hnew hfuel
    obtain ⟨g', hconnect, hwf', hchain⟩ := hstacked.chainOf hnew hwf rfl
    refine .inl ⟨modules, _, hmodules, hlen, hwf', hchain, ?_⟩
    rw [show addStack resolve newId profile.stack r .new [] = _ from hadd]
    dsimp only
    rw [hconnect]
    dsimp only
    rw [hchain.validate hnew hwf' (horder _) hfuel]
  · refine .inr ⟨k, name, hk, hnone, hfirst, ?_⟩
    rw [show addStack resolve newId profile.stack r .new [] = _ from hadd]

/-- A profile is built exactly when all its names resolve, and then into the chain of its stack; the first name
that does not resolve is returned otherwise. -/
theorem build_from_profile_chain (resolve : R → String → R × Option (ArcNode M)) (profile : ProfileConfig) (r : R)
    (hnew : Set.InjOn newId (Set.Iio profile.stack.length)) {order : FlowGraph M → List NodeId}
    (horder : ∀ g, (order g).Perm g.nodeIds) {fuel : Nat} (hfuel : profile.stack.length ≤ fuel) :
    ((∃ g, buildFromProfile resolve newId profile r order fuel = some (.returned (.ok g))) ↔
      none ∉ resolved resolve r profile.stack) ∧
    (∀ (k : Nat) (name : String), profile.stack[k]? = some name → (resolved resolve r profile.stack)[k]? = some none →
      (∀ j < k, (resolved resolve r profile.stack)[j]? ≠ some none) →
        buildFromProfile resolve newId profile r order fuel = some (.returned (.error (.unknownModule name)))) ∧
    ∀ g, buildFromProfile resolve newId profile r order fuel = some (.returned (.ok g)) →
      ∃ modules, resolved resolve r profile.stack = modules.map some ∧ ChainOf newId modules g ∧
        g.validate (order g) fuel = some (.returned (.ok ())) ∧
        ∀ last, modules.length = last + 1 →
          g.findPath fuel (newId 0) (newId last) = some (.returned (some ((List.range modules.length).map newId))) := by
  have hsome : ∀ modules : List (ArcNode M), none ∉ modules.map some := by
    intro modules hmem
    obtain ⟨arc, -, harc⟩ := List.mem_map.mp hmem
    cases harc
  rcases buildFromProfile_cases resolve profile r hnew horder hfuel with
    ⟨modules, g, hmodules, hlen, hwf, hchain, hbuild⟩ | ⟨k, name, hk, hnone, hfirst, hbuild⟩
  · rw [← hlen] at hnew hfuel
    rw [hmodules, hbuild]
    refine ⟨iff_of_true ⟨g, rfl⟩ (hsome modules), fun k name _ hnone _ => ?_, ?_⟩
    · exact absurd (List.mem_of_getElem? hnone) (hsome modules)
    · rintro _ ⟨⟩
      exact ⟨modules, rfl, hchain, hchain.validate hnew hwf (horder g) hfuel,
        fun last hlast => hchain.findPath hnew hwf hfuel hlast⟩
  · rw [hbuild]
    refine ⟨iff_of_false (fun ⟨_, h⟩ => by cases h) (not_not.mpr (List.mem_of_getElem? hnone)), ?_, fun g h => by cases h⟩
    intro k' name' hk' hnone' hfirst'
    -- the first name that does not resolve is the only one that comes first
    obtain rfl : k = k' := by
      by_contra hne
      rcases Nat.lt_or_gt_of_ne hne with hlt | hlt
      · exact hfirst' k hlt hnone
      · exact hfirst k' hlt hnone'
    rw [hk] at hk'
    cases hk'
    rfl

end Chain

def stubResolve : Unit → String → Unit × Option (ArcNode StubNode)
  | _, "unknown" => ((), none)
  | _, "sink" => ((), some ⟨0, 1, ⟨"sink", .sink, .passes⟩⟩)
  | _, name => ((), some ⟨0, 1, ⟨name, .transformer, .passes⟩⟩)

def numbered (k : Nat) : NodeId := ⟨BitVec.ofNat 128 k⟩

theorem numbered_injOn {n : Nat} (hn : n ≤ 2 ^ 128) : Set.InjOn numbered (Set.Iio n) := by
  intro i hi j hj heq
  have hvalue : BitVec.ofNat 128 i = BitVec.ofNat 128 j := congrArg NodeId.uuid heq
  have hnat := congrArg BitVec.toNat hvalue
  rwa [BitVec.toNat_ofNat, BitVec.toNat_ofNat, Nat.mod_eq_of_lt (lt_of_lt_of_le hi hn),
    Nat.mod_eq_of_lt (lt_of_lt_of_le hj hn)] at hnat

theorem build_from_profile_chain_pair :
    let profile : ProfileConfig := ⟨["first", "second"]⟩
    ((∃ g, buildFromProfile stubResolve numbered profile () FlowGraph.nodeIds 2 = some (.returned (.ok g))) ↔
      none ∉ resolved stubResolve () profile.stack) ∧
    (∀ (k : Nat) (name : String), profile.stack[k]? = some name → (resolved stubResolve () profile.stack)[k]? = some none →
      (∀ j < k, (resolved stubResolve () profile.stack)[j]? ≠ some none) →
        buildFromProfile stubResolve numbered profile () FlowGraph.nodeIds 2 =
          some (.returned (.error (.unknownModule name)))) ∧
    ∀ g, buildFromProfile stubResolve numbered profile () FlowGraph.nodeIds 2 = some (.returned (.ok g)) →
      ∃ modules, resolved stubResolve () profile.stack = modules.map some ∧ ChainOf numbered modules g ∧
        g.validate g.nodeIds 2 = some (.returned (.ok ())) ∧
        ∀ last, modules.length = last + 1 →
          g.findPath 2 (numbered 0) (numbered last) =
            some (.returned (some ((List.range modules.length).map numbered))) :=
  build_from_profile_chain stubResolve ⟨["first", "second"]⟩ () (numbered_injOn (by decide)) (fun _ => .refl _) (Nat.le_refl 2)

end Nyarix
