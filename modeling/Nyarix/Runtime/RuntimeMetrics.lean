import Nyarix.Execution.Metered
import Nyarix.Runtime.GraphBuilder
import Nyarix.Runtime.ModuleLoader

/-! The gauges of the runtime as a whole: what they say of a load of modules, and of a graph's depth. -/

namespace Nyarix
open Semver (Version)

/-- Metrics of the runtime are recorded under this name in place of a module's. -/
def runtimeMetricsScope : String := "runtime"

def gaugeOf (n : Nat) : Int64 := .ofNat (min n i64Max)

theorem toInt_gaugeOf (n : Nat) : (gaugeOf n).toInt = min n i64Max := by
  have hbound : min n i64Max < 2 ^ 63 := Nat.lt_of_le_of_lt (Nat.min_le_right ..) (by decide)
  unfold gaugeOf
  rw [Int64.toInt_ofNat_of_lt hbound]

def recordModuleLoadReport (metrics : MetricRegistry) (report : ModuleLoadReport) : MetricRegistry :=
  let loaded := gaugeOf report.valid.length
  let failed := gaugeOf (report.invalid.length + report.errors.length)
  (metrics.gauge runtimeMetricsScope "modules_loaded" (·.set loaded)).gauge runtimeMetricsScope "modules_failed"
    (·.set failed)

theorem recordModuleLoadReport_loaded (metrics : MetricRegistry) (report : ModuleLoadReport) :
    (recordModuleLoadReport metrics report).getGauge runtimeMetricsScope "modules_loaded" =
      some ⟨gaugeOf report.valid.length⟩ := by
  have hother : metricName runtimeMetricsScope "modules_loaded" ≠ metricName runtimeMetricsScope "modules_failed" := by
    decide
  unfold recordModuleLoadReport
  rw [MetricRegistry.getGauge_gauge, if_neg hother, MetricRegistry.getGauge_gauge, if_pos rfl]
  rfl

theorem recordModuleLoadReport_failed (metrics : MetricRegistry) (report : ModuleLoadReport) :
    (recordModuleLoadReport metrics report).getGauge runtimeMetricsScope "modules_failed" =
      some ⟨gaugeOf (report.invalid.length + report.errors.length)⟩ := by
  unfold recordModuleLoadReport
  rw [MetricRegistry.getGauge_gauge, if_pos rfl]
  rfl

section Load
variable [LinearOrder Version] {env : Validating} {read : UnixPath → Except IoError ByteArray} {files : ModuleFiles}
  {directories : List UnixPath} {index : ModuleIndex}

/-- Whatever the order in which the index is gone through, every package file of the directories is loaded,
rejected, in error, or a duplicate of one that is indexed; and the gauges add up to the files that are no
duplicates. -/
theorem module_files_accounted_for (hindex : index.packages.entries.Perm
      (scanDirectories env.checking.codec files directories).index.packages.entries) (metrics : MetricRegistry) :
    let scan := scanDirectories env.checking.codec files directories
    let report := loadScanned read index env scan.errors
    (report.paths ++ scan.duplicates.map (·.duplicatePath)).Perm (files.packages directories) ∧
    (∀ duplicate ∈ scan.duplicates, ∃ kept ∈ index.listed, kept.name = duplicate.name ∧
      kept.version = duplicate.version ∧ kept.path = duplicate.keptPath) ∧
    ∃ loaded failed,
      (recordModuleLoadReport metrics report).getGauge runtimeMetricsScope "modules_loaded" = some loaded ∧
      (recordModuleLoadReport metrics report).getGauge runtimeMetricsScope "modules_failed" = some failed ∧
      loaded.value.toInt = min report.valid.length i64Max ∧
      ((files.packages directories).length < 2 ^ 63 → loaded.value.toInt + failed.value.toInt + scan.duplicates.length =
        (files.packages directories).length) := by
  intro scan report
  have hscanned := scanDirectories_scanned env.checking.codec files directories
  have haccounted := scanDirectories_accounted env.checking.codec files directories
  have hlisted : index.listed.Perm scan.index.listed := hscanned.listed_reordered hindex
  -- loading goes through what is indexed, in whatever order, and leaves the rest as scanned
  have hpaths : (report.paths ++ scan.duplicates.map (·.duplicatePath)).Perm (files.packages directories) := by
    refine List.Perm.trans ?_ haccounted.paths
    exact ((loadScanned_paths index scan.errors).trans ((hlisted.map _).append_right _)).append_right _
  refine ⟨hpaths, fun duplicate hduplicate => ?_, _, _, recordModuleLoadReport_loaded metrics report,
    recordModuleLoadReport_failed metrics report, toInt_gaugeOf _, fun hroom => ?_⟩
  · obtain ⟨kept, hkept, hversion, hpath⟩ := haccounted.kept duplicate hduplicate
    have hname := hscanned.sound.named duplicate.name kept hkept
    exact ⟨kept, hlisted.mem_iff.mpr (mem_listed.mpr ⟨_, hkept⟩), hname, hversion, hpath⟩
  · have hlength := hpaths.length_eq
    unfold ModuleLoadReport.paths at hlength
    simp only [List.length_append, List.length_map] at hlength
    rw [toInt_gaugeOf, toInt_gaugeOf]
    unfold i64Max
    omega

end Load

theorem module_files_accounted_for_namesakes :
    (namesakeReport.paths ++ namesakeScan.duplicates.map (·.duplicatePath)).Perm
      [.new "relay-1.nyp", .new "relay-2.nyp"] := by
  let _ := Version.numericOrder
  exact (module_files_accounted_for (List.Perm.refl _) .new).1

namespace FlowGraph
variable {M : Type}

def depthOver (g : FlowGraph M) (fuel : Nat) : List (NodeId × NodeId) → Option (Unwind Nat)
  | [] => some (.returned 0)
  | (entry, exit) :: pairs =>
    match g.findPath fuel entry exit with
    | none => none
    | some (.panicked reason) => some (.panicked reason)
    | some (.returned path) =>
      match g.depthOver fuel pairs with
      | some (.returned depth) => some (.returned (max ((path.map List.length).getD 0) depth))
      | r => r

def recordGraphDepth (metrics : MetricRegistry) (g : FlowGraph M) (fuel : Nat) : Option (Unwind MetricRegistry) :=
  match g.depthOver fuel (g.entryPoints ×ˢ g.exitPoints) with
  | none => none
  | some (.panicked reason) => some (.panicked reason)
  | some (.returned depth) =>
    some (.returned (metrics.gauge runtimeMetricsScope "graph_depth" (·.set (gaugeOf depth))))

structure Way (g : FlowGraph M) (entry exit : NodeId) (way : List NodeId) : Prop where
  head : way.head? = some entry
  last : way.getLast? = some exit
  chain : way.IsChain g.Joins
  nodup : way.Nodup
  present : ∀ n ∈ way, n ∈ g.nodes

/-- How many nodes the ways from an entry to an exit come by. -/
def WayLengths (g : FlowGraph M) : Set Nat :=
  {n | ∃ entry ∈ g.entryPoints, ∃ exit ∈ g.exitPoints, ∃ way, g.Way entry exit way ∧ way.length = n}

variable {g : FlowGraph M} {fuel : Nat}

theorem Way.reaches {a b : NodeId} {way : List NodeId} (h : g.Way a b way) :
    a ∈ g.nodes ∧ b ∈ g.nodes ∧ Relation.ReflTransGen g.Joins a b := by
  have hwalk := Bfs.walk_of_isChain h.head h.last (isChain_successors.mpr h.chain)
  have hsteps := Bfs.reflTransGen_of_walk hwalk
  simp only [mem_successors] at hsteps
  exact ⟨h.present a (List.mem_of_mem_head? h.head), h.present b (List.mem_of_mem_getLast? h.last), hsteps⟩

theorem Shortest.way (hg : g.WellFormed) {a b : NodeId} (ha : a ∈ g.nodes) {path : List NodeId}
    (h : g.Shortest a b path) : g.Way a b path := by
  refine ⟨h.head, h.last, h.chain, h.nodup, ?_⟩
  refine h.chain.induction (· ∈ g.nodes) path (fun _ _ hjoins _ => (hg.mem_of_joins hjoins).2) fun hne => ?_
  have hhead := h.head
  rw [List.head?_eq_some_head hne] at hhead
  rw [Option.some.inj hhead]
  exact ha

theorem Way.length_le {a b : NodeId} {way : List NodeId} (h : g.Way a b way) : way.length ≤ g.nodeIds.length :=
  (List.subperm_of_subset h.nodup fun n hn => AList.mem_keys.mp (h.present n hn)).length_le

theorem WellFormed.findPath_way (hg : g.WellFormed) (hfuel : g.nodeIds.length ≤ fuel) (a b : NodeId) :
    (g.findPath fuel a b = some (.returned none) ∧ ∀ way, ¬ g.Way a b way) ∨
    ∃ path, g.findPath fuel a b = some (.returned (some path)) ∧ g.Way a b path ∧
      ∀ way, g.Way a b way → path.length ≤ way.length := by
  obtain ⟨result, hresult, hsome, hshortest⟩ := hg.findPath_returns a b
  cases result with
  | none => exact .inl ⟨hresult fuel hfuel, fun way hway => Bool.false_ne_true (hsome.mpr hway.reaches)⟩
  | some path =>
    have hpath := hshortest path rfl
    obtain ⟨ha, -, -⟩ := hsome.mp rfl
    exact .inr ⟨path, hresult fuel hfuel, hpath.way hg ha, fun way hway => hpath.fewest way hway.head hway.last hway.chain⟩

theorem WellFormed.depthOver_returns (hg : g.WellFormed) (hfuel : g.nodeIds.length ≤ fuel)
    (pairs : List (NodeId × NodeId)) : ∃ depth, g.depthOver fuel pairs = some (.returned depth) ∧
      (depth = 0 ∨ ∃ pair ∈ pairs, ∃ way, g.Way pair.1 pair.2 way ∧ way.length = depth) ∧
      ∀ pair ∈ pairs, ∀ way, g.Way pair.1 pair.2 way →
        ∃ shortest, g.Way pair.1 pair.2 shortest ∧ shortest.length ≤ way.length ∧ shortest.length ≤ depth := by
  induction pairs with
  | nil => exact ⟨0, rfl, .inl rfl, List.forall_mem_nil _⟩
  | cons pair pairs ih =>
    obtain ⟨entry, exit⟩ := pair
    obtain ⟨depth, hdepth, hattained, hbound⟩ := ih
    unfold depthOver
    rcases hg.findPath_way hfuel entry exit with ⟨hnone, hno⟩ | ⟨path, hfound, hway, hfewest⟩
    · rw [hnone, hdepth]
      have hmax : some (Unwind.returned (max 0 depth)) = some (.returned depth) := by rw [Nat.zero_max]
      refine ⟨depth, hmax, hattained.imp_right ?_, ?_⟩
      · rintro ⟨pair, hpair, hways⟩
        exact ⟨pair, List.mem_cons_of_mem _ hpair, hways⟩
      · exact List.forall_mem_cons.mpr ⟨fun way hway => absurd hway (hno way), hbound⟩
    · rw [hfound, hdepth]
      refine ⟨max path.length depth, rfl, ?_, List.forall_mem_cons.mpr ⟨fun way hother => ?_, ?_⟩⟩
      · rcases Nat.le_total depth path.length with hle | hle
        · rw [Nat.max_eq_left hle]
          exact .inr ⟨(entry, exit), List.mem_cons_self, path, hway, rfl⟩
        · rw [Nat.max_eq_right hle]
          refine hattained.imp_right ?_
          rintro ⟨pair, hpair, hways⟩
          exact ⟨pair, List.mem_cons_of_mem _ hpair, hways⟩
      · exact ⟨path, hway, hfewest way hother, Nat.le_max_left ..⟩
      · intro pair hpair way hother
        obtain ⟨shortest, hshortest, hle, hdeep⟩ := hbound pair hpair way hother
        exact ⟨shortest, hshortest, hle, hdeep.trans (Nat.le_max_right ..)⟩

theorem Way.length_pos {a b : NodeId} {way : List NodeId} (h : g.Way a b way) : 0 < way.length :=
  List.length_pos_of_mem (List.mem_of_mem_head? h.head)

theorem WellFormed.recordGraphDepth_returns (hg : g.WellFormed) (hfuel : g.nodeIds.length ≤ fuel) (metrics : MetricRegistry) :
    ∃ depth, recordGraphDepth metrics g fuel =
        some (.returned (metrics.gauge runtimeMetricsScope "graph_depth" (·.set (gaugeOf depth)))) ∧
      depth ≤ g.nodeIds.length ∧ (depth = 0 ↔ g.WayLengths = ∅) ∧ (depth ≠ 0 → depth ∈ g.WayLengths) ∧
      (∀ entry ∈ g.entryPoints, ∀ exit ∈ g.exitPoints, (∃ way, g.Way entry exit way) →
        ∃ way, g.Way entry exit way ∧ way.length ≤ depth) ∧
      ((∀ entry ∈ g.entryPoints, ∀ exit ∈ g.exitPoints, {way | g.Way entry exit way}.Subsingleton) →
        IsLUB g.WayLengths depth) := by
  obtain ⟨depth, hdepth, hattained, hbound⟩ :=
    hg.depthOver_returns hfuel (g.entryPoints ×ˢ g.exitPoints)
  have hattained' : depth = 0 ∨ depth ∈ g.WayLengths := by
    refine hattained.imp_right ?_
    rintro ⟨⟨entry, exit⟩, hpair, hways⟩
    obtain ⟨hentry, hexit⟩ := List.pair_mem_product.mp hpair
    exact ⟨entry, hentry, exit, hexit, hways⟩
  have hbound' : ∀ entry ∈ g.entryPoints, ∀ exit ∈ g.exitPoints, ∀ way, g.Way entry exit way →
      ∃ shortest, g.Way entry exit shortest ∧ shortest.length ≤ way.length ∧ shortest.length ≤ depth :=
    fun entry hentry exit hexit => hbound (entry, exit) (List.pair_mem_product.mpr ⟨hentry, hexit⟩)
  have hzero : depth = 0 ↔ g.WayLengths = ∅ := by
    -- a way comes by one node at least, so a depth of nought leaves none
    constructor
    · intro hdepth
      rw [Set.eq_empty_iff_forall_notMem]
      rintro n ⟨entry, hentry, exit, hexit, way, hway, -⟩
      obtain ⟨shortest, hshortest, -, hle⟩ := hbound' entry hentry exit hexit way hway
      have hpos := hshortest.length_pos
      omega
    · intro hempty
      refine hattained'.resolve_right fun hmem => ?_
      rw [hempty] at hmem
      exact hmem
  refine ⟨depth, ?_, ?_, hzero, hattained'.resolve_left, ?_, fun hunique => ⟨?_, ?_⟩⟩
  · unfold recordGraphDepth
    rw [hdepth]
  · rcases hattained' with hdepth | ⟨_, _, _, _, way, hway, rfl⟩
    · rw [hdepth]
      exact Nat.zero_le _
    · exact hway.length_le
  · rintro entry hentry exit hexit ⟨way, hway⟩
    obtain ⟨shortest, hshortest, -, hle⟩ := hbound' entry hentry exit hexit way hway
    exact ⟨shortest, hshortest, hle⟩
  · -- the only way of its pair is the shortest one
    rintro n ⟨entry, hentry, exit, hexit, way, hway, rfl⟩
    obtain ⟨shortest, hshortest, -, hle⟩ := hbound' entry hentry exit hexit way hway
    rw [hunique entry hentry exit hexit hway hshortest]
    exact hle
  · intro bound hupper
    rcases hattained' with hdepth | hmem
    · rw [hdepth]
      exact Nat.zero_le _
    · exact hupper hmem

/-- The recorded depth is the length of a way from an entry to an exit, or nought if there is none, and every
exit is at most so far from each entry that leads to it. It is the greatest length of a way where no two ways
lead from one entry to one exit. -/
theorem graph_depth_of_ways [Node M] (hg : g.Reachable) (hfuel : g.nodeIds.length ≤ fuel) (metrics : MetricRegistry) :
    ∃ depth, recordGraphDepth metrics g fuel =
        some (.returned (metrics.gauge runtimeMetricsScope "graph_depth" (·.set (gaugeOf depth)))) ∧
      depth ≤ g.nodeIds.length ∧ (depth = 0 ↔ g.WayLengths = ∅) ∧ (depth ≠ 0 → depth ∈ g.WayLengths) ∧
      (∀ entry ∈ g.entryPoints, ∀ exit ∈ g.exitPoints, (∃ way, g.Way entry exit way) →
        ∃ way, g.Way entry exit way ∧ way.length ≤ depth) ∧
      ((∀ entry ∈ g.entryPoints, ∀ exit ∈ g.exitPoints, {way | g.Way entry exit way}.Subsingleton) →
        IsLUB g.WayLengths depth) :=
  hg.wellFormed.recordGraphDepth_returns hfuel metrics

theorem relay_way : relay.Way ⟨0⟩ ⟨1⟩ [⟨0⟩, ⟨1⟩] where
  head := rfl
  last := rfl
  chain := List.isChain_pair.mpr ⟨_, List.mem_cons_self, rfl, rfl⟩
  nodup := by decide
  present := by decide

theorem graph_depth_of_ways_relay : ∃ depth, recordGraphDepth .new relay 2 =
      some (.returned (MetricRegistry.new.gauge runtimeMetricsScope "graph_depth" (·.set (gaugeOf depth)))) ∧
    depth = 2 := by
  have hreachable : relay.Reachable := stubGraph_reachable _ _
  obtain ⟨depth, hdepth, hle, -, -, hbound, -⟩ :=
    graph_depth_of_ways hreachable (Nat.le_refl relay.nodeIds.length) .new
  obtain ⟨way, hway, hlength⟩ := hbound ⟨0⟩ (by decide) ⟨1⟩ (by decide) ⟨_, relay_way⟩
  have hends : way.head? ≠ way.getLast? := by
    rw [hway.head, hway.last]
    decide
  have htwo : 2 ≤ way.length := by
    rcases way with _ | ⟨first, _ | ⟨second, rest⟩⟩
    · exact absurd rfl hends
    · exact absurd rfl hends
    · exact Nat.le_add_left 2 rest.length
  exact ⟨depth, hdepth, Nat.le_antisymm hle (htwo.trans hlength)⟩

end FlowGraph

section Profile
variable {M R : Type} [Node M] {newId : Nat → NodeId}

theorem ChainOf.way_unique {modules : List (ArcNode M)} {g : FlowGraph M} (h : ChainOf newId modules g)
    (hnew : Set.InjOn newId (Set.Iio modules.length)) (a b : NodeId) : {way | g.Way a b way}.Subsingleton := by
  intro way hway way' hway'
  obtain ⟨i, hi, rfl⟩ := h.mem_nodes.mp hway.reaches.1
  obtain ⟨heq, hle⟩ := h.path_eq hnew hi hway.chain hway.head
  obtain ⟨heq', hle'⟩ := h.path_eq hnew hi hway'.chain hway'.head
  have hpos := hway.length_pos
  have hpos' := hway'.length_pos
  have hlast := hway.last
  have hlast' := hway'.last
  rw [heq, List.getLast?_map, List.getLast?_range', if_neg (Nat.ne_of_gt hpos)] at hlast
  rw [heq', List.getLast?_map, List.getLast?_range', if_neg (Nat.ne_of_gt hpos')] at hlast'
  have hindex := hnew (Set.mem_Iio.mpr (by omega)) (Set.mem_Iio.mpr (by omega))
    ((Option.some.inj hlast).trans (Option.some.inj hlast').symm)
  have hlength : way.length = way'.length := by omega
  rw [heq, heq', hlength]

/-- The depth of a graph that is built from a profile is the length of the profile's stack. -/
theorem profile_graph_depth (resolve : R → String → R × Option (ArcNode M)) (profile : ProfileConfig) (r : R)
    (hnew : Set.InjOn newId (Set.Iio profile.stack.length)) {order : FlowGraph M → List NodeId}
    (horder : ∀ g, (order g).Perm g.nodeIds) {fuel : Nat} (hfuel : profile.stack.length ≤ fuel) {g : FlowGraph M}
    (h : buildFromProfile resolve newId profile r order fuel = some (.returned (.ok g))) (metrics : MetricRegistry) :
    FlowGraph.recordGraphDepth metrics g fuel = some (.returned
      (metrics.gauge runtimeMetricsScope "graph_depth" (·.set (gaugeOf profile.stack.length)))) := by
  rcases buildFromProfile_cases resolve profile r hnew horder hfuel with
    ⟨modules, g', -, hlen, hwf, hchain, hbuild⟩ | ⟨k, name, -, -, -, hbuild⟩
  swap
  · cases hbuild.symm.trans h
  obtain rfl : g' = g := by
    cases hbuild.symm.trans h
    rfl
  rw [← hlen] at hnew hfuel ⊢
  have hnodes : g'.nodeIds.length ≤ fuel := by rwa [hchain.nodes.length_eq, List.length_map, List.length_range]
  obtain ⟨depth, hdepth, -, hzero, hmem, -, hgreatest⟩ := hwf.recordGraphDepth_returns hnodes metrics
  -- every way is a stretch of the chain, and the chain itself is a way
  have hupper : ∀ n ∈ g'.WayLengths, n ≤ modules.length := by
    rintro n ⟨entry, -, exit, -, way, hway, rfl⟩
    obtain ⟨i, hi, rfl⟩ := hchain.mem_nodes.mp hway.reaches.1
    obtain ⟨-, hle⟩ := hchain.path_eq hnew hi hway.chain hway.head
    omega
  have hattained : modules.length ≠ 0 → modules.length ∈ g'.WayLengths := by
    intro hne
    obtain ⟨last, hlast⟩ := Nat.exists_eq_succ_of_ne_zero hne
    have hpath := hchain.findPath hnew hwf hfuel hlast
    rcases hwf.findPath_way hnodes (newId 0) (newId last) with ⟨hnone, -⟩ | ⟨path, hfound, hway, -⟩
    · cases hnone.symm.trans hpath
    · cases hfound.symm.trans hpath
      have hfirst : (0 : Nat) < modules.length := by omega
      have hend : last < modules.length := by omega
      refine ⟨newId 0, (hchain.entryPoints _).mpr ⟨0, modules[0], List.getElem?_eq_getElem hfirst, rfl, .inl rfl⟩,
        newId last, (hchain.exitPoints _).mpr ⟨last, modules[last], List.getElem?_eq_getElem hend, rfl, .inl hlast.symm⟩,
        _, hway, ?_⟩
      rw [List.length_map, List.length_range]
  -- a chain has one way for each pair, so the depth is the greatest length
  have hlub := hgreatest fun entry _ exit _ => hchain.way_unique hnew entry exit
  have hsame : depth = modules.length := by
    refine Nat.le_antisymm (hlub.2 hupper) ?_
    by_cases hne : modules.length = 0
    · rw [hne]
      exact Nat.zero_le _
    · exact hlub.1 (hattained hne)
  rw [hdepth, hsame]

end Profile

theorem profile_graph_depth_pair : ∃ g,
    buildFromProfile stubResolve numbered ⟨["first", "second"]⟩ () FlowGraph.nodeIds 2 = some (.returned (.ok g)) ∧
      FlowGraph.recordGraphDepth .new g 2 = some (.returned
        (MetricRegistry.new.gauge runtimeMetricsScope "graph_depth" (·.set (gaugeOf 2)))) := by
  have hnew : Set.InjOn numbered (Set.Iio 2) := numbered_injOn (by decide)
  have hbuilt : ∃ g, buildFromProfile stubResolve numbered ⟨["first", "second"]⟩ () FlowGraph.nodeIds 2 =
      some (.returned (.ok g)) := ⟨_, rfl⟩
  obtain ⟨g, hg⟩ := hbuilt
  exact ⟨g, hg, profile_graph_depth stubResolve ⟨["first", "second"]⟩ () hnew (fun _ => .refl _) (Nat.le_refl 2) hg .new⟩

end Nyarix

