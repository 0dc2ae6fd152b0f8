import Nyarix.Graph.Atomicity
import Nyarix.Lib.Dfs

/-! Validation of a flow graph: its cycle check, its search for paths, and what an accepted graph
has. Loops and recursion are bounded by fuel; the order of `nodes.keys()` is an argument. -/

namespace Nyarix

inductive DfsMark where
  | visiting | visited
  deriving DecidableEq, Repr

structure CycleSearch where
  marks : HashMap NodeId DfsMark
  stack : List NodeId

def CycleSearch.enter (s : CycleSearch) (node : NodeId) : CycleSearch :=
  ⟨s.marks.insert node .visiting, s.stack ++ [node]⟩

def CycleSearch.leave (s : CycleSearch) (node : NodeId) : CycleSearch :=
  ⟨s.marks.insert node .visited, s.stack.dropLast⟩

structure PathSearch where
  visited : Finset NodeId
  queue : List NodeId
  predecessor : HashMap NodeId NodeId

namespace FlowGraph
variable {M : Type}

def dfsDetectCycle (g : FlowGraph M) : Nat → NodeId → CycleSearch → Option (Except (List NodeId) CycleSearch)
  | 0, _, _ => none
  | fuel + 1, node, s =>
    let neighbors := (g.adjacency.lookup node).getD []
    (Dfs.each (fun next s =>
        if (node, next) ∈ g.allowedFeedbackEdges then some (.ok s)
        else
          match s.marks.lookup next with
          | some .visiting =>
            let start := (s.stack.idxOf? next).getD 0
            some (.error (s.stack.drop start ++ [next]))
          | some .visited => some (.ok s)
          | none => g.dfsDetectCycle fuel next s)
      neighbors (s.enter node)).map (Except.map (·.leave node))

/-- The first cycle found; `none` while the fuel does not suffice. -/
def detectCycle (g : FlowGraph M) (order : List NodeId) (fuel : Nat) : Option (Option (List NodeId)) :=
  (Dfs.each (fun start s => if start ∈ s.marks then some (.ok s) else g.dfsDetectCycle fuel start s) order
    ⟨∅, []⟩).map fun
      | .error cycle => some cycle
      | .ok _ => none

def nodeName [Node M] (g : FlowGraph M) (id : NodeId) : String :=
  match g.node id with
  | none => toString id
  | some node => node.metadata.name

def describeCycle [Node M] (g : FlowGraph M) (cycle : List NodeId) : String :=
  " → ".intercalate (cycle.map g.nodeName)

/-- One neighbour of `current`; the predecessors are complete once it is the goal. -/
def discover (current goal : NodeId) (s : PathSearch) (next : NodeId) :
    Except (HashMap NodeId NodeId) PathSearch :=
  if next ∈ s.visited then .ok s
  else
    let predecessor := s.predecessor.insert next current
    if next = goal then .error predecessor
    else .ok ⟨insert next s.visited, s.queue ++ [next], predecessor⟩

def searchPath (g : FlowGraph M) (goal : NodeId) (fuel : Nat) (s : PathSearch) :
    Option (Option (HashMap NodeId NodeId)) :=
  match s.queue, fuel with
  | [], _ => some none
  | _ :: _, 0 => none
  | current :: queue, fuel + 1 =>
    match g.adjacency.lookup current with
    | none => g.searchPath goal fuel { s with queue := queue }
    | some neighbors =>
      match neighbors.foldlM (discover current goal) { s with queue := queue } with
      | .error predecessor => some (some predecessor)
      | .ok s => g.searchPath goal fuel s

/-- Go back from `current`; a node without a predecessor panics. -/
def reconstructPath (predecessor : HashMap NodeId NodeId) (fromNode : NodeId) (fuel : Nat) (current : NodeId)
    (path : List NodeId) : Option (Unwind (List NodeId)) :=
  if current = fromNode then some (.returned path.reverse)
  else
    match fuel with
    | 0 => none
    | fuel + 1 =>
      match predecessor.lookup current with
      | none => some (.panicked "no entry found for key")
      | some previous => reconstructPath predecessor fromNode fuel previous (path ++ [previous])

def findPath (g : FlowGraph M) (fuel : Nat) (fromNode toNode : NodeId) : Option (Unwind (Option (List NodeId))) :=
  if fromNode ∉ g.nodes ∨ toNode ∉ g.nodes then some (.returned none)
  else if fromNode = toNode then some (.returned (some [fromNode]))
  else
    match g.searchPath toNode fuel ⟨{fromNode}, [fromNode], ∅⟩ with
    | none => none
    | some none => some (.returned none)
    | some (some predecessor) =>
      match reconstructPath predecessor fromNode fuel toNode [toNode] with
      | none => none
      | some (.panicked reason) => some (.panicked reason)
      | some (.returned path) => some (.returned (some path))

def reachesAnExit (g : FlowGraph M) (fuel : Nat) (entry : NodeId) : List NodeId → Option (Unwind Bool)
  | [] => some (.returned false)
  | exit :: exits =>
    match g.findPath fuel entry exit with
    | none => none
    | some (.panicked reason) => some (.panicked reason)
    | some (.returned (some _)) => some (.returned true)
    | some (.returned none) => g.reachesAnExit fuel entry exits

def checkEntries (g : FlowGraph M) (fuel : Nat) : List NodeId → Option (Unwind (Except GraphError Unit))
  | [] => some (.returned (.ok ()))
  | entry :: entries =>
    match g.reachesAnExit fuel entry g.exitPoints with
    | none => none
    | some (.panicked reason) => some (.panicked reason)
    | some (.returned false) =>
      some (.returned (.error (.buildFailed s!"entry point {entry} cannot reach any exit point")))
    | some (.returned true) => g.checkEntries fuel entries

def orphaned (g : FlowGraph M) (id : NodeId) : Bool :=
  id ∉ g.entryPoints ∧ id ∉ g.exitPoints ∧ ¬ (g.edges.any fun edge => edge.toNode = id) ∧
    ((g.adjacency.lookup id).getD []).isEmpty

def validate [Node M] (g : FlowGraph M) (order : List NodeId) (fuel : Nat) :
    Option (Unwind (Except GraphError Unit)) :=
  match g.detectCycle order fuel with
  | none => none
  | some (some cycle) => some (.returned (.error (.cycle (g.describeCycle cycle))))
  | some none =>
    match g.checkEntries fuel g.entryPoints with
    | some (.returned (.ok ())) =>
      match order.find? g.orphaned with
      | some id =>
        some (.returned (.error (.buildFailed
          s!"node '{g.nodeName id}' ({id}) is orphaned: no incoming or outgoing edges")))
      | none => some (.returned (.ok ()))
    | r => r

def checkedNeighbors (g : FlowGraph M) (node : NodeId) : List NodeId :=
  ((g.adjacency.lookup node).getD []).filter fun next => (node, next) ∉ g.allowedFeedbackEdges

end FlowGraph

def colour : Option DfsMark → Dfs.Mark
  | none => .unvisited
  | some .visiting => .inProgress
  | some .visited => .done

/-- The cycle check is at the same point as the search, which also keeps the order of leaving. -/
structure CycleSearch.Traces (s : CycleSearch) (t : Dfs.Search NodeId) : Prop where
  mark : ∀ n, t.mark n = colour (s.marks.lookup n)
  path : t.path = s.stack

namespace CycleSearch
variable {s : CycleSearch} {t : Dfs.Search NodeId}

theorem colour_insert (h : ∀ n, t.mark n = colour (s.marks.lookup n)) (node : NodeId) (mark : DfsMark) (n : NodeId) :
    Function.update t.mark node (colour (some mark)) n = colour ((s.marks.insert node mark).lookup n) := by
  by_cases hn : n = node
  · subst hn
    rw [Function.update_self, AList.lookup_insert]
  · rw [Function.update_of_ne hn, AList.lookup_insert_ne hn, h]

theorem Traces.enter (h : Traces s t) (node : NodeId) : Traces (s.enter node) (t.enter node) where
  mark := colour_insert h.mark node .visiting
  path := congrArg (· ++ [node]) h.path

theorem Traces.leave (h : Traces s t) (node : NodeId) : Traces (s.leave node) (t.leave node) where
  mark := colour_insert h.mark node .visited
  path := congrArg List.dropLast h.path

end CycleSearch

namespace FlowGraph
variable {M : Type} {g : FlowGraph M} {order : List NodeId} {fuel : Nat}

theorem follow_agree {fuel : Nat} (ih : ∀ node s t, CycleSearch.Traces s t → s.marks.lookup node = none →
      Dfs.Agree CycleSearch.Traces (g.dfsDetectCycle fuel node s) (Dfs.visit g.checkedNeighbors fuel node t))
    (next : NodeId) (s : CycleSearch) (t : Dfs.Search NodeId) (h : CycleSearch.Traces s t) :
    Dfs.Agree CycleSearch.Traces
      (match s.marks.lookup next with
        | some .visiting =>
          let start := (s.stack.idxOf? next).getD 0
          some (.error (s.stack.drop start ++ [next]))
        | some .visited => some (.ok s)
        | none => g.dfsDetectCycle fuel next s) (Dfs.visit g.checkedNeighbors fuel next t) := by
  have hmark := h.mark next
  cases hlookup : s.marks.lookup next with
  | none => exact ih next s t h hlookup
  | some mark =>
    rw [hlookup] at hmark
    unfold Dfs.visit
    cases mark with
    | visiting =>
      rw [hmark, colour]
      dsimp only
      rw [Dfs.closing, h.path]
      exact .stop _
    | visited =>
      rw [hmark, colour]
      exact .ok h

theorem dfsDetectCycle_agree (fuel : Nat) (node : NodeId) (s : CycleSearch) (t : Dfs.Search NodeId)
    (h : CycleSearch.Traces s t) (hnew : s.marks.lookup node = none) :
    Dfs.Agree CycleSearch.Traces (g.dfsDetectCycle fuel node s) (Dfs.visit g.checkedNeighbors fuel node t) := by
  have hmark : t.mark node = .unvisited := by rw [h.mark, hnew, colour]
  induction fuel generalizing node s t with
  | zero =>
    unfold Dfs.visit
    rw [hmark]
    exact .fuel
  | succ fuel ih =>
    have hfollow := follow_agree fun node s t h hnew => ih node s t h hnew (by rw [h.mark, hnew, colour])
    unfold Dfs.visit dfsDetectCycle
    rw [hmark]
    refine Dfs.Agree.map (fun s t hs => hs.leave node) ?_
    have hall := Dfs.each_agree (fun next (_ : next ∈ g.checkedNeighbors node) => hfollow next) (h.enter node)
    rw [checkedNeighbors, ← Dfs.each_filter] at hall
    simp only [ite_not] at hall
    exact hall

theorem dfsDetectCycle_mono {fuel fuel' : Nat} (hfuel : fuel ≤ fuel') {node : NodeId} {s : CycleSearch}
    {r : Except (List NodeId) CycleSearch} (hr : g.dfsDetectCycle fuel node s = some r) :
    g.dfsDetectCycle fuel' node s = some r := by
  induction fuel generalizing fuel' node s r with
  | zero => cases hr
  | succ fuel ih =>
    obtain ⟨fuel', rfl⟩ : ∃ n, fuel' = n + 1 := ⟨fuel' - 1, by omega⟩
    unfold dfsDetectCycle at hr ⊢
    obtain ⟨inner, heach, hr⟩ := Option.map_eq_some_iff.mp hr
    refine Option.map_eq_some_iff.mpr ⟨inner, Dfs.each_mono ?_ heach, hr⟩
    intro next s r hnext
    split_ifs at hnext ⊢ with hallowed
    · exact hnext
    · cases hlookup : s.marks.lookup next with
      | none =>
        rw [hlookup] at hnext
        exact ih (Nat.le_of_succ_le_succ hfuel) hnext
      | some mark =>
        rw [hlookup] at hnext
        cases mark with
        | visiting => exact hnext
        | visited => exact hnext

theorem detectCycle_mono {fuel fuel' : Nat} (hfuel : fuel ≤ fuel') {r : Option (List NodeId)}
    (hr : g.detectCycle order fuel = some r) : g.detectCycle order fuel' = some r := by
  obtain ⟨inner, heach, hr⟩ := Option.map_eq_some_iff.mp hr
  refine Option.map_eq_some_iff.mpr ⟨inner, Dfs.each_mono ?_ heach, hr⟩
  intro start s r hstart
  split_ifs at hstart ⊢ with hmarked
  · exact hstart
  · exact dfsDetectCycle_mono hfuel hstart

theorem adjacency_getD (hg : g.WellFormed) (node : NodeId) :
    (g.adjacency.lookup node).getD [] = (g.edgesFrom node).map Edge.toNode := by
  by_cases hnode : node ∈ g.nodes
  · rw [hg.adjacent node hnode, Option.getD_some]
  · have hnone : g.edgesFrom node = [] := by
      apply List.filter_eq_nil_iff.mpr
      intro edge hedge hfrom
      have hfrom := of_decide_eq_true hfrom
      exact hnode (hfrom ▸ (hg.endpoints edge hedge).1)
    have hlookup : g.adjacency.lookup node = none :=
      AList.lookup_eq_none.mpr fun hmem => hnode ((hg.keys node).mp hmem)
    rw [hnone, hlookup]
    rfl

theorem mem_checkedNeighbors (hg : g.WellFormed) {a b : NodeId} : b ∈ g.checkedNeighbors a ↔
    (∃ edge ∈ g.edges, edge.fromNode = a ∧ edge.toNode = b) ∧ (a, b) ∉ g.allowedFeedbackEdges := by
  rw [checkedNeighbors, adjacency_getD hg, List.mem_filter, decide_eq_true_eq]
  refine and_congr_left fun _ => ?_
  rw [List.mem_map]
  constructor
  · rintro ⟨edge, hedge, hto⟩
    obtain ⟨hmem, hfrom⟩ := List.mem_filter.mp hedge
    exact ⟨edge, hmem, of_decide_eq_true hfrom, hto⟩
  · rintro ⟨edge, hmem, hfrom, hto⟩
    exact ⟨edge, List.mem_filter.mpr ⟨hmem, decide_eq_true hfrom⟩, hto⟩

theorem checkedNeighbors_subset (hg : g.WellFormed) (node : NodeId) : g.checkedNeighbors node ⊆ g.nodeIds := by
  intro next hnext
  obtain ⟨⟨edge, hedge, -, rfl⟩, -⟩ := (mem_checkedNeighbors hg).mp hnext
  exact AList.mem_keys.mp (hg.endpoints edge hedge).2

theorem start_agree (hg : g.WellFormed) (hfuel : g.nodeIds.length ≤ fuel) {start : NodeId} (hstart : start ∈ g.nodeIds)
    {s : CycleSearch} {t : Dfs.Search NodeId} (h : CycleSearch.Traces s t)
    (hcolouring : Dfs.Colouring g.checkedNeighbors g.nodeIds t) (hpath : t.path = []) :
    Dfs.Agree (fun s t => CycleSearch.Traces s t ∧ Dfs.Colouring g.checkedNeighbors g.nodeIds t ∧ t.path = [])
      (if start ∈ s.marks then some (.ok s) else g.dfsDetectCycle fuel start s)
      (Dfs.visit g.checkedNeighbors fuel start t) := by
  have hmark := h.mark start
  split_ifs with hmarked
  · cases hlookup : s.marks.lookup start with
    | none => exact absurd hmarked (AList.lookup_eq_none.mp hlookup)
    | some mark =>
      rw [hlookup] at hmark
      cases mark with
      | visiting =>
        have hmem := (hcolouring.inProgress start).mp hmark
        rw [hpath] at hmem
        exact absurd hmem List.not_mem_nil
      | visited =>
        unfold Dfs.visit
        rw [hmark]
        exact .ok ⟨h, hcolouring, hpath⟩
  · have hagree := dfsDetectCycle_agree (g := g) fuel start s t h (AList.lookup_eq_none.mpr hmarked)
    have hchain : (t.path ++ [start]).IsChain fun a b => b ∈ g.checkedNeighbors a := by
      rw [hpath]
      exact List.isChain_singleton start
    have hadvances := Dfs.advances_visit (checkedNeighbors_subset hg) hstart hcolouring hchain
      (hfuel.trans (Nat.le_add_right fuel _))
    generalize g.dfsDetectCycle fuel start s = r, Dfs.visit g.checkedNeighbors fuel start t = r' at hagree hadvances
    cases hagree with
    | fuel => exact .fuel
    | stop e => exact .stop e
    | ok hnext =>
      cases hadvances with
      | ok hcolouring' hpath' _ _ => exact .ok ⟨hnext, hcolouring', hpath'.trans hpath⟩

theorem detectCycle_cases (hg : g.WellFormed) (horder : order.Perm g.nodeIds) (hfuel : g.nodeIds.length ≤ fuel) :
    (g.detectCycle order fuel = some none ∧ Dfs.Acyclic g.checkedNeighbors) ∨
      ∃ c, g.detectCycle order fuel = some (some c) ∧ Dfs.ClosedWalk g.checkedNeighbors c := by
  have hstart : CycleSearch.Traces ⟨∅, []⟩ .start := ⟨fun _ => rfl, rfl⟩
  have hagree := Dfs.each_agree (fun start hmem s t hst => start_agree hg hfuel (horder.subset hmem) hst.1 hst.2.1 hst.2.2)
    ⟨hstart, Dfs.Colouring.start, rfl⟩
  have hcases := Dfs.search_cases (checkedNeighbors_subset hg) g.nodes.keys_nodup hfuel horder
  rw [Dfs.search] at hcases
  unfold detectCycle
  generalize Dfs.each (fun start s => if start ∈ s.marks then some (.ok s) else g.dfsDetectCycle fuel start s) order
    ⟨∅, []⟩ = r, Dfs.each (Dfs.visit g.checkedNeighbors fuel) order .start = r' at hagree hcases
  rcases hcases with ⟨s', rfl, -, -, hacyclic⟩ | ⟨c, rfl, hclosed, -⟩
  · cases hagree with
    | ok _ => exact .inl ⟨rfl, hacyclic⟩
  · cases hagree with
    | stop _ => exact .inr ⟨c, rfl, hclosed⟩

theorem acyclic_of_detectCycle (hg : g.WellFormed) (horder : order.Perm g.nodeIds)
    (h : g.detectCycle order fuel = some none) : Dfs.Acyclic g.checkedNeighbors := by
  have hmore := detectCycle_mono (Nat.le_max_left fuel g.nodeIds.length) h
  rcases detectCycle_cases hg horder (Nat.le_max_right fuel g.nodeIds.length) with ⟨-, hacyclic⟩ | ⟨c, hc, -⟩
  · exact hacyclic
  · rw [hmore] at hc
    cases hc

theorem reachesAnExit_true {entry : NodeId} {exits : List NodeId}
    (h : g.reachesAnExit fuel entry exits = some (.returned true)) :
    ∃ exit ∈ exits, ∃ path, g.findPath fuel entry exit = some (.returned (some path)) := by
  induction exits with
  | nil => cases h
  | cons exit exits ih =>
    rw [reachesAnExit] at h
    rcases hpath : g.findPath fuel entry exit with _ | (_ | path) | reason
    · rw [hpath] at h
      cases h
    · rw [hpath] at h
      obtain ⟨exit', hexit', hfound⟩ := ih h
      exact ⟨exit', List.mem_cons_of_mem exit hexit', hfound⟩
    · exact ⟨exit, List.mem_cons_self, path, hpath⟩
    · rw [hpath] at h
      cases h

theorem checkEntries_ok {entries : List NodeId} (h : g.checkEntries fuel entries = some (.returned (.ok ()))) :
    ∀ entry ∈ entries, g.reachesAnExit fuel entry g.exitPoints = some (.returned true) := by
  induction entries with
  | nil => exact fun entry hentry => absurd hentry List.not_mem_nil
  | cons entry entries ih =>
    rw [checkEntries] at h
    rcases hreach : g.reachesAnExit fuel entry g.exitPoints with _ | (_ | _) | reason
    · rw [hreach] at h
      cases h
    · rw [hreach] at h
      cases h
    · rw [hreach] at h
      exact List.forall_mem_cons.mpr ⟨hreach, ih h⟩
    · rw [hreach] at h
      cases h

theorem mem_of_findPath {fromNode toNode : NodeId} {path : List NodeId}
    (h : g.findPath fuel fromNode toNode = some (.returned (some path))) : fromNode ∈ g.nodes ∧ toNode ∈ g.nodes := by
  by_contra hmissing
  rw [findPath, if_pos (by tauto)] at h
  cases h

theorem validate_ok [Node M] (h : g.validate order fuel = some (.returned (.ok ()))) :
    g.detectCycle order fuel = some none ∧ ∀ entry ∈ g.entryPoints, entry ∈ g.nodes ∧
      ∃ exit ∈ g.exitPoints, ∃ path, g.findPath fuel entry exit = some (.returned (some path)) := by
  unfold validate at h
  rcases hcycle : g.detectCycle order fuel with _ | _ | cycle
  · rw [hcycle] at h
    cases h
  · rw [hcycle] at h
    have hentries : g.checkEntries fuel g.entryPoints = some (.returned (.ok ())) := by
      generalize g.checkEntries fuel g.entryPoints = r at h
      rcases r with _ | (_ | _) | _
      · cases h
      · cases h
      · rfl
      · cases h
    refine ⟨rfl, fun entry hentry => ?_⟩
    obtain ⟨exit, hexit, path, hpath⟩ := reachesAnExit_true (checkEntries_ok hentries entry hentry)
    exact ⟨(mem_of_findPath hpath).1, exit, hexit, path, hpath⟩
  · rw [hcycle] at h
    cases h

end FlowGraph
end Nyarix
