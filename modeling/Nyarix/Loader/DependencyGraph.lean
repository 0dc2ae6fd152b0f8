import Mathlib.Data.List.Sort
import Mathlib.Data.Option.Basic
import Mathlib.Data.String.Basic
import Nyarix.Lib.Dfs
import Nyarix.Package.Manifest

/-! The dependency graph of a set of manifests and its load order: a depth-first search over
the sorted names that follows each package's sorted dependencies. -/

namespace Nyarix

structure DependencyGraph where
  edges : HashMap String (List String)

structure DependencyCycle where
  cycle : List String
  deriving DecidableEq, Repr

structure Visiting where
  marks : HashMap String Dfs.Mark
  path : List String
  order : List String

def Visiting.enter (s : Visiting) (name : String) : Visiting :=
  { s with marks := s.marks.insert name .inProgress, path := s.path ++ [name] }

def Visiting.leave (s : Visiting) (name : String) : Visiting :=
  ⟨s.marks.insert name .done, s.path.dropLast, s.order ++ [name]⟩

/-- Sort as `sort_unstable` does: equal strings cannot be told apart. -/
def sortedNames (names : List String) : List String := names.insertionSort (· ≤ ·)

namespace DependencyGraph

def build (manifests : List PackageManifest) : DependencyGraph :=
  ⟨manifests.foldl (fun edges manifest => edges.insert manifest.package.name manifest.dependencies.keys) ∅⟩

def visit (g : DependencyGraph) (fuel : Nat) (name : String) (s : Visiting) :
    Option (Except DependencyCycle Visiting) :=
  match s.marks.lookup name, fuel with
  | some .done, _ => some (.ok s)
  | some .inProgress, _ =>
    let start := (s.path.idxOf? name).getD 0
    some (.error ⟨s.path.drop start ++ [name]⟩)
  | _, 0 => none
  | _, fuel + 1 =>
    let deps := match g.edges.lookup name with
      | some deps => sortedNames deps
      | none => []
    (Dfs.each (fun dep s => if dep ∈ g.edges then g.visit fuel dep s else some (.ok s)) deps (s.enter name)).map
      (Except.map (·.leave name))

def loadOrder (g : DependencyGraph) (fuel : Nat) : Option (Except DependencyCycle (List String)) :=
  (Dfs.each (g.visit fuel) (sortedNames g.edges.keys)
    ⟨g.edges.keys.foldl (fun marks name => marks.insert name .unvisited) ∅, [], []⟩).map
      (Except.map Visiting.order)

def Reordered (g g' : DependencyGraph) : Prop :=
  ∀ name, Option.Rel List.Perm (g.edges.lookup name) (g'.edges.lookup name)

/-- The known dependencies of a package, in the order of the visits. -/
def successors (g : DependencyGraph) (name : String) : List String :=
  (sortedNames ((g.edges.lookup name).getD [])).filter (· ∈ g.edges)

end DependencyGraph

def Visiting.search (s : Visiting) : Dfs.Search String :=
  ⟨fun name => (s.marks.lookup name).getD .unvisited, s.path, s.order⟩

namespace Visiting
variable (s : Visiting) (name : String)

theorem search_mark (mark : Dfs.Mark) :
    (fun other => ((s.marks.insert name mark).lookup other).getD .unvisited) =
      Function.update s.search.mark name mark := by
  funext other
  by_cases h : other = name
  · subst h
    rw [AList.lookup_insert, Function.update_self]
    rfl
  · rw [AList.lookup_insert_ne h, Function.update_of_ne h]
    rfl

theorem search_enter : (s.enter name).search = s.search.enter name := by
  rw [search, enter, search_mark]
  rfl

theorem search_leave : (s.leave name).search = s.search.leave name := by
  rw [search, leave, search_mark]
  rfl

end Visiting

namespace DependencyGraph

theorem each_deps (g : DependencyGraph) {fuel : Nat}
    (ih : ∀ name s, Dfs.through Visiting.search DependencyCycle.cycle (g.visit fuel name s) =
      Dfs.visit g.successors fuel name s.search) (name : String) (s : Visiting) :
    Dfs.through Visiting.search DependencyCycle.cycle
        ((Dfs.each (fun dep s => if dep ∈ g.edges then g.visit fuel dep s else some (.ok s))
          (sortedNames ((g.edges.lookup name).getD [])) (s.enter name)).map (Except.map (·.leave name))) =
      (Dfs.each (Dfs.visit g.successors fuel) (g.successors name) (s.search.enter name)).map
        (Except.map (·.leave name)) := by
  have heach := Dfs.each_through ih (g.successors name) (s.enter name)
  rw [Visiting.search_enter] at heach
  have hleave (r : Option (Except DependencyCycle Visiting)) :
      Dfs.through Visiting.search DependencyCycle.cycle (r.map (Except.map (·.leave name))) =
        (Dfs.through Visiting.search DependencyCycle.cycle r).map (Except.map (·.leave name)) :=
    Dfs.through_map _ _ (fun s => s.search_leave name) r
  rw [hleave, Dfs.each_filter, ← heach]
  rfl

theorem visit_search (g : DependencyGraph) (fuel : Nat) (name : String) (s : Visiting) :
    Dfs.through Visiting.search DependencyCycle.cycle (g.visit fuel name s) =
      Dfs.visit g.successors fuel name s.search := by
  have hmark : s.search.mark name = (s.marks.lookup name).getD .unvisited := rfl
  have hdeps : (match g.edges.lookup name with
      | some deps => sortedNames deps
      | none => []) = sortedNames ((g.edges.lookup name).getD []) := by
    cases g.edges.lookup name <;> rfl
  induction fuel generalizing name s with
  | zero =>
    unfold visit Dfs.visit
    rw [hmark]
    rcases s.marks.lookup name with _ | _ | _ | _ <;> rfl
  | succ fuel ih =>
    have hall := g.each_deps (fun name s => ih name s rfl (by cases g.edges.lookup name <;> rfl)) name s
    unfold visit Dfs.visit
    rw [hmark, hdeps]
    rcases s.marks.lookup name with _ | _ | _ | _
    · exact hall
    · exact hall
    · rfl
    · rfl

theorem lookup_unvisited (names : List String) (marks : HashMap String Dfs.Mark)
    (h : ∀ name, (marks.lookup name).getD .unvisited = .unvisited) (name : String) :
    ((names.foldl (fun marks name => marks.insert name .unvisited) marks).lookup name).getD .unvisited =
      .unvisited := by
  induction names generalizing marks with
  | nil => exact h name
  | cons first names ih =>
    apply ih
    intro other
    by_cases hother : other = first
    · rw [hother, AList.lookup_insert]
      rfl
    · rw [AList.lookup_insert_ne hother]
      exact h other

theorem loadOrder_search (g : DependencyGraph) (fuel : Nat) :
    g.loadOrder fuel = Dfs.through Dfs.Search.order DependencyCycle.mk
      (Dfs.search g.successors fuel (sortedNames g.edges.keys)) := by
  have hstart : (⟨g.edges.keys.foldl (fun marks name => marks.insert name .unvisited) ∅, [], []⟩ :
      Visiting).search = Dfs.Search.start := by
    have hmarks := lookup_unvisited g.edges.keys ∅ fun _ => rfl
    rw [Visiting.search, Dfs.Search.start]
    congr 1
    funext name
    exact hmarks name
  have heach := Dfs.each_through (g.visit_search fuel) (sortedNames g.edges.keys)
    ⟨g.edges.keys.foldl (fun marks name => marks.insert name .unvisited) ∅, [], []⟩
  rw [hstart] at heach
  rw [Dfs.search, ← heach, loadOrder]
  rcases Dfs.each (g.visit fuel) (sortedNames g.edges.keys) _ with _ | e | s <;> rfl

theorem loadOrder_congr {g g' : DependencyGraph} (hnames : sortedNames g.edges.keys = sortedNames g'.edges.keys)
    (hsucc : g.successors = g'.successors) (fuel : Nat) : g.loadOrder fuel = g'.loadOrder fuel := by
  rw [loadOrder_search, hnames, hsucc, ← loadOrder_search]

theorem sortedNames_eq {names names' : List String} (h : names.Perm names') :
    sortedNames names = sortedNames names' := by
  have hperm : (sortedNames names).Perm (sortedNames names') :=
    (List.perm_insertionSort _ names).trans (h.trans (List.perm_insertionSort _ names').symm)
  exact hperm.eq_of_pairwise' (List.pairwise_insertionSort _ names) (List.pairwise_insertionSort _ names')

namespace Reordered
variable {g g' : DependencyGraph}

theorem mem_iff (h : g.Reordered g') (name : String) : name ∈ g.edges ↔ name ∈ g'.edges := by
  rw [← AList.lookup_isSome, ← AList.lookup_isSome]
  have hname := h name
  generalize g.edges.lookup name = deps, g'.edges.lookup name = deps' at hname
  cases hname with
  | none => exact Iff.rfl
  | some _ => exact iff_of_true rfl rfl

theorem names (h : g.Reordered g') : sortedNames g.edges.keys = sortedNames g'.edges.keys := by
  apply sortedNames_eq
  apply (List.perm_ext_iff_of_nodup g.edges.keys_nodup g'.edges.keys_nodup).mpr
  exact fun name => h.mem_iff name

theorem successors (h : g.Reordered g') : g.successors = g'.successors := by
  funext name
  have hdeps : sortedNames ((g.edges.lookup name).getD []) = sortedNames ((g'.edges.lookup name).getD []) := by
    have hname := h name
    generalize g.edges.lookup name = deps, g'.edges.lookup name = deps' at hname
    cases hname with
    | none => rfl
    | some hperm => exact sortedNames_eq hperm
  rw [DependencyGraph.successors, DependencyGraph.successors, hdeps]
  exact List.filter_congr fun dep _ => decide_eq_decide.mpr (h.mem_iff dep)

theorem loadOrder (h : g.Reordered g') (fuel : Nat) : g.loadOrder fuel = g'.loadOrder fuel :=
  loadOrder_congr h.names h.successors fuel

end Reordered

theorem lookup_build_last (manifests : List PackageManifest) (name : String) :
    (build manifests).edges.lookup name =
      (manifests.reverse.find? (·.package.name = name)).map (·.dependencies.keys) :=
  HashMap.lookup_foldl_insert _ _ manifests name

theorem mem_build (manifests : List PackageManifest) (name : String) :
    name ∈ (build manifests).edges ↔ ∃ m ∈ manifests, m.package.name = name := by
  rw [← AList.lookup_isSome, lookup_build_last, Option.isSome_map, List.find?_isSome]
  simp only [List.mem_reverse, decide_eq_true_eq]

theorem of_find?_name {manifests : List PackageManifest} {name : String} {m : PackageManifest}
    (h : manifests.find? (·.package.name = name) = some m) : m ∈ manifests ∧ m.package.name = name := by
  have hname := List.find?_some h
  exact ⟨List.mem_of_find?_eq_some h, of_decide_eq_true hname⟩

theorem find?_name {manifests : List PackageManifest} (hnames : (manifests.map (·.package.name)).Nodup)
    {m : PackageManifest} (hm : m ∈ manifests) :
    manifests.find? (·.package.name = m.package.name) = some m := by
  obtain ⟨found, hfind⟩ : ∃ found, manifests.find? (·.package.name = m.package.name) = some found := by
    apply Option.isSome_iff_exists.mp
    exact List.find?_isSome.mpr ⟨m, hm, by simp⟩
  obtain ⟨hmem, hname⟩ := of_find?_name hfind
  rw [hfind, List.inj_on_of_nodup_map hnames hmem hm hname]

theorem lookup_build {manifests : List PackageManifest} (hnames : (manifests.map (·.package.name)).Nodup)
    (name : String) : (build manifests).edges.lookup name =
      (manifests.find? (·.package.name = name)).map (·.dependencies.keys) := by
  rw [lookup_build_last]
  cases hfind : manifests.reverse.find? (·.package.name = name) with
  | none =>
    have hnone : manifests.find? (·.package.name = name) = none := by
      apply List.find?_eq_none.mpr
      exact fun m hm => List.find?_eq_none.mp hfind m (List.mem_reverse.mpr hm)
    rw [hnone]
  | some m =>
    obtain ⟨hmem, hname⟩ := of_find?_name hfind
    rw [← hname, find?_name hnames (List.mem_reverse.mp hmem)]

theorem build_perm {manifests manifests' : List PackageManifest} (h : manifests'.Perm manifests)
    (hnames : (manifests.map (·.package.name)).Nodup) :
    (build manifests').Reordered (build manifests) := by
  have hnames' := (h.map (·.package.name)).nodup_iff.mpr hnames
  intro name
  rw [lookup_build hnames, lookup_build hnames']
  cases hfind : manifests.find? (·.package.name = name) with
  | none =>
    have hnone : manifests'.find? (·.package.name = name) = none := by
      apply List.find?_eq_none.mpr
      exact fun m hm => List.find?_eq_none.mp hfind m (h.subset hm)
    rw [hnone]
    exact .none
  | some m =>
    obtain ⟨hmem, hname⟩ := of_find?_name hfind
    rw [← hname, find?_name hnames' (h.symm.subset hmem)]
    exact .some (List.Perm.refl _)

theorem Reordered.refl (g : DependencyGraph) : g.Reordered g := by
  intro name
  cases g.edges.lookup name with
  | none => exact .none
  | some deps => exact .some (List.Perm.refl deps)

theorem Reordered.trans {g g' g'' : DependencyGraph} (h : g.Reordered g') (h' : g'.Reordered g'') :
    g.Reordered g'' := by
  intro name
  have hname := h name
  have hname' := h' name
  generalize g.edges.lookup name = a, g'.edges.lookup name = b, g''.edges.lookup name = c at hname hname'
  cases hname with
  | none => exact hname'
  | some hab =>
    cases hname' with
    | some hbc => exact .some (hab.trans hbc)

end DependencyGraph

def Declares (manifests : List PackageManifest) (a b : String) : Prop :=
  (∃ m ∈ manifests, m.package.name = a ∧ b ∈ m.dependencies) ∧ ∃ m ∈ manifests, m.package.name = b

structure IsLoadOrder (manifests : List PackageManifest) (order : List String) : Prop where
  names : order.Perm (manifests.map (·.package.name))
  first : ∀ front a back, order = front ++ a :: back → ∀ b, Declares manifests a b → b ∈ front

structure IsCycle (manifests : List PackageManifest) (cycle : List String) : Prop where
  steps : 2 ≤ cycle.length
  closes : cycle.head? = cycle.getLast?
  declared : cycle.IsChain (Declares manifests)
  nodup : cycle.dropLast.Nodup

namespace DependencyGraph
variable {manifests : List PackageManifest}

theorem mem_successors (hnames : (manifests.map (·.package.name)).Nodup) (a b : String) :
    b ∈ (build manifests).successors a ↔ Declares manifests a b := by
  rw [successors, List.mem_filter, decide_eq_true_eq, mem_build, sortedNames, List.mem_insertionSort,
    lookup_build hnames, Declares]
  refine and_congr_left fun _ => ?_
  constructor
  · intro hb
    cases hfind : manifests.find? (·.package.name = a) with
    | none =>
      rw [hfind] at hb
      exact absurd hb List.not_mem_nil
    | some m =>
      rw [hfind] at hb
      obtain ⟨hmem, hname⟩ := of_find?_name hfind
      exact ⟨m, hmem, hname, hb⟩
  · rintro ⟨m, hm, rfl, hb⟩
    rw [find?_name hnames hm]
    exact hb

theorem keys_build (hnames : (manifests.map (·.package.name)).Nodup) :
    (build manifests).edges.keys.Perm (manifests.map (·.package.name)) := by
  apply (List.perm_ext_iff_of_nodup (build manifests).edges.keys_nodup hnames).mpr
  intro name
  rw [List.mem_map]
  exact mem_build manifests name

theorem loadOrder_cases (g : DependencyGraph) {fuel : Nat} (hlength : g.edges.keys.length ≤ fuel) :
    ∃ result : Except DependencyCycle (List String), (∀ fuel', fuel ≤ fuel' → g.loadOrder fuel' = some result) ∧
      ((∃ order, result = .ok order) ↔ Dfs.Acyclic g.successors) ∧
      (∀ order, result = .ok order → order.Perm g.edges.keys ∧
        Dfs.SuccessorsFirst g.successors order) ∧
      ∀ e, result = .error e → Dfs.ClosedWalk g.successors e.cycle := by
  have hknown (name : String) : g.successors name ⊆ g.edges.keys := fun b hb =>
    AList.mem_keys.mp (of_decide_eq_true (List.mem_filter.mp hb).2)
  have hstarts : (sortedNames g.edges.keys).Perm g.edges.keys := List.perm_insertionSort _ _
  rcases Dfs.search_cases hknown g.edges.keys_nodup hlength hstarts with
    ⟨s, hs, horder, hfirst, hacyclic⟩ | ⟨c, hc, hclosed, hcyclic⟩
  · refine ⟨.ok s.order, fun fuel' hfuel => ?_, iff_of_true ⟨s.order, rfl⟩ hacyclic, fun order ho => ?_,
      fun e he => by cases he⟩
    · rw [loadOrder_search, Dfs.search_mono _ hfuel hs]
      rfl
    · obtain rfl : s.order = order := Except.ok.inj ho
      exact ⟨horder, hfirst⟩
  · refine ⟨.error ⟨c⟩, fun fuel' hfuel => ?_, iff_of_false ?_ hcyclic, fun order ho => (by cases ho), fun e he => ?_⟩
    · rw [loadOrder_search, Dfs.search_mono _ hfuel hc]
      rfl
    · rintro ⟨order, ho⟩
      cases ho
    · obtain rfl : ⟨c⟩ = e := Except.error.inj he
      exact hclosed

/-- The load order is found whenever the declared dependencies have no cycle, and is a topological
sort; otherwise a cycle is found. Neither depends on any order of iteration. -/
theorem load_order_topological (hnames : (manifests.map (·.package.name)).Nodup) :
    ∃ result : Except DependencyCycle (List String),
      (∀ (manifests' : List PackageManifest) (g : DependencyGraph) (fuel : Nat), manifests'.Perm manifests →
        g.Reordered (build manifests') → manifests.length ≤ fuel → g.loadOrder fuel = some result) ∧
      ((∃ order, result = .ok order) ↔ ∀ a, ¬ Relation.TransGen (Declares manifests) a a) ∧
      (∀ order, result = .ok order → IsLoadOrder manifests order) ∧
      ∀ e, result = .error e → IsCycle manifests e.cycle := by
  have hrel : (fun a b => b ∈ (build manifests).successors a) = Declares manifests := by
    funext a b
    exact propext (mem_successors hnames a b)
  have hkeys := keys_build hnames
  have hlength : (build manifests).edges.keys.length ≤ manifests.length := by
    rw [hkeys.length_eq, List.length_map]
  obtain ⟨result, hresult, hacyclic, horder, hcycle⟩ := (build manifests).loadOrder_cases hlength
  rw [Dfs.Acyclic, hrel] at hacyclic
  refine ⟨result, fun manifests' g fuel hperm hg hfuel => ?_, hacyclic, fun order ho => ?_, fun e he => ?_⟩
  · have hsame := hg.trans (build_perm hperm hnames)
    rw [hsame.loadOrder fuel, hresult fuel hfuel]
  · obtain ⟨hperm, hfirst⟩ := horder order ho
    exact ⟨hperm.trans hkeys, fun front a back hsplit b hb =>
      hfirst front a back hsplit b ((mem_successors hnames a b).mpr hb)⟩
  · have hclosed := hcycle e he
    have hchain := hclosed.chain
    rw [hrel] at hchain
    exact ⟨hclosed.steps, hclosed.closes, hchain, hclosed.nodup⟩

def loopManifests : List PackageManifest := [stubManifest "a" ["b"], stubManifest "b" ["a", "c"]]

theorem load_order_topological_loop : ∃ result, (build loopManifests).loadOrder 2 = some result ∧
    ∀ e, result = .error e → IsCycle loopManifests e.cycle := by
  have hnames : (loopManifests.map (·.package.name)).Nodup := by decide
  obtain ⟨result, hsame, -, -, hcycle⟩ := load_order_topological hnames
  exact ⟨result, hsame _ _ 2 (List.Perm.refl _) (.refl _) (by decide), hcycle⟩

example : (build loopManifests).loadOrder 2 = some (.error ⟨["a", "b", "a"]⟩) := by decide

end DependencyGraph
end Nyarix
