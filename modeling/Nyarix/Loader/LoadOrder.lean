import Nyarix.Loader.DependencyGraph

/-! The load order of manifests among which names repeat. The graph keeps the dependencies of the last
manifest of each name, so those of the others are ordered only as far as the last one declares them too. -/

namespace Nyarix

def Provided (manifests : List PackageManifest) (name : String) : Prop := ∃ m ∈ manifests, m.package.name = name

/-- The manifests of one name declare the same dependencies on packages that the list provides. -/
def SameDependencies (manifests : List PackageManifest) : Prop :=
  ∀ m ∈ manifests, ∀ m' ∈ manifests, m.package.name = m'.package.name →
    ∀ d, Provided manifests d → d ∈ m.dependencies → d ∈ m'.dependencies

/-- Every name once, each after whatever any manifest of that name depends on. -/
structure OrdersAll (manifests : List PackageManifest) (order : List String) : Prop where
  nodup : order.Nodup
  names : ∀ name, name ∈ order ↔ Provided manifests name
  first : ∀ front a back, order = front ++ a :: back → ∀ b, Declares manifests a b → b ∈ front

namespace DependencyGraph

/-- One result for the manifests in whatever order, which orders all declared dependencies if it
is a load order at all. -/
def LoadsInOrder (manifests : List PackageManifest) : Prop :=
  ∃ result : Except DependencyCycle (List String),
    (∀ (manifests' : List PackageManifest) (g : DependencyGraph) (fuel : Nat), manifests'.Perm manifests →
      g.Reordered (build manifests') → manifests.length ≤ fuel → g.loadOrder fuel = some result) ∧
    ∀ order, result = .ok order → OrdersAll manifests order

theorem mem_successors_last (manifests : List PackageManifest) (a b : String) :
    b ∈ (build manifests).successors a ↔
      (∃ m, manifests.reverse.find? (·.package.name = a) = some m ∧ b ∈ m.dependencies) ∧ Provided manifests b := by
  rw [successors, List.mem_filter, decide_eq_true_eq, mem_build, sortedNames, List.mem_insertionSort,
    lookup_build_last]
  refine and_congr_left fun _ => ?_
  cases manifests.reverse.find? (·.package.name = a) with
  | none => simp
  | some m => simp [AList.mem_keys]

theorem of_find?_last {manifests : List PackageManifest} {name : String} {m : PackageManifest}
    (h : manifests.reverse.find? (·.package.name = name) = some m) : m ∈ manifests ∧ m.package.name = name := by
  obtain ⟨hmem, hname⟩ := of_find?_name h
  exact ⟨List.mem_reverse.mp hmem, hname⟩

theorem exists_last {manifests : List PackageManifest} {name : String} (h : Provided manifests name) :
    ∃ m, manifests.reverse.find? (·.package.name = name) = some m := by
  obtain ⟨m, hm, hname⟩ := h
  exact Option.isSome_iff_exists.mp (List.find?_isSome.mpr ⟨m, List.mem_reverse.mpr hm, decide_eq_true hname⟩)

theorem Provided.perm {manifests manifests' : List PackageManifest} (h : manifests'.Perm manifests) (name : String) :
    Provided manifests' name ↔ Provided manifests name :=
  exists_congr fun _ => and_congr_left fun _ => h.mem_iff

theorem mem_successors_iff {manifests manifests' : List PackageManifest} (h : manifests'.Perm manifests)
    (hsame : SameDependencies manifests) (a b : String) :
    b ∈ (build manifests').successors a ↔ Declares manifests a b := by
  rw [mem_successors_last, Provided.perm h, Declares]
  refine and_congr_left fun hb => ?_
  constructor
  · rintro ⟨m, hlast, hdep⟩
    obtain ⟨hm, hname⟩ := of_find?_last hlast
    exact ⟨m, h.subset hm, hname, hdep⟩
  · rintro ⟨m, hm, hname, hdep⟩
    obtain ⟨last, hlast⟩ := exists_last ⟨m, h.symm.subset hm, hname⟩
    obtain ⟨hmem, hlastname⟩ := of_find?_last hlast
    exact ⟨last, hlast, hsame m hm last (h.subset hmem) (hname.trans hlastname.symm) b hb hdep⟩

theorem nodup_lookup_build {manifests : List PackageManifest} {name : String} {deps : List String}
    (h : (build manifests).edges.lookup name = some deps) : deps.Nodup := by
  rw [lookup_build_last, Option.map_eq_some_iff] at h
  obtain ⟨m, -, rfl⟩ := h
  exact m.dependencies.keys_nodup

theorem successors_build_eq {manifests manifests' : List PackageManifest} {a : String}
    (h : ∀ b, b ∈ (build manifests').successors a ↔ b ∈ (build manifests).successors a) :
    (build manifests').successors a = (build manifests).successors a := by
  have hsorted (g : DependencyGraph) : (g.successors a).Pairwise (· ≤ ·) :=
    (List.pairwise_insertionSort _ _).filter _
  have hnodup (manifests : List PackageManifest) : ((build manifests).successors a).Nodup := by
    refine List.Nodup.filter _ ((List.perm_insertionSort _ _).nodup_iff.mpr ?_)
    cases hdeps : (build manifests).edges.lookup a with
    | none => exact List.nodup_nil
    | some deps => exact nodup_lookup_build hdeps
  have hperm := (List.perm_ext_iff_of_nodup (hnodup manifests') (hnodup manifests)).mpr h
  exact hperm.eq_of_pairwise' (hsorted _) (hsorted _)

theorem sameDependencies_iff (manifests : List PackageManifest) : SameDependencies manifests ↔
    ∀ manifests' : List PackageManifest, manifests'.Perm manifests → ∀ a b, Declares manifests a b →
      b ∈ (build manifests').successors a := by
  constructor
  · exact fun hsame manifests' h a b hdeclares => (mem_successors_iff h hsame a b).mpr hdeclares
  · intro hall m hm m' hm' hname d hknown hdep
    obtain ⟨front, back, rfl⟩ := List.append_of_mem hm'
    have hperm : (front ++ back ++ [m']).Perm (front ++ m' :: back) :=
      (List.perm_append_singleton m' _).trans List.perm_middle.symm
    have hsucc := hall _ hperm m'.package.name d ⟨⟨m, hm, hname, hdep⟩, hknown⟩
    obtain ⟨⟨last, hlast, hlastdep⟩, -⟩ := (mem_successors_last _ _ _).mp hsucc
    rw [List.reverse_append, List.reverse_singleton, List.singleton_append,
      List.find?_cons_of_pos (by simp), Option.some.injEq] at hlast
    rwa [hlast]

theorem loadsInOrder_of_same {manifests : List PackageManifest} (hsame : SameDependencies manifests) :
    LoadsInOrder manifests := by
  have hlength : (build manifests).edges.keys.length ≤ manifests.length := by
    have hsub : (build manifests).edges.keys ⊆ manifests.map (·.package.name) := fun name hname =>
      List.mem_map.mpr ((mem_build manifests name).mp (AList.mem_keys.mpr hname))
    have hle := ((build manifests).edges.keys_nodup.subperm hsub).length_le
    rwa [List.length_map] at hle
  -- every order of the manifests leads to the same search
  have hperm {manifests' : List PackageManifest} (h : manifests'.Perm manifests) {g : DependencyGraph}
      (hg : g.Reordered (build manifests')) (fuel : Nat) : g.loadOrder fuel = (build manifests).loadOrder fuel := by
    refine (hg.loadOrder fuel).trans (loadOrder_congr (sortedNames_eq ?_) (funext fun a => ?_) fuel)
    · refine (List.perm_ext_iff_of_nodup (build manifests').edges.keys_nodup
        (build manifests).edges.keys_nodup).mpr fun name => ?_
      exact ((mem_build manifests' name).trans (Provided.perm h name)).trans (mem_build manifests name).symm
    · refine successors_build_eq fun b => ?_
      rw [mem_successors_iff h hsame, mem_successors_iff (.refl _) hsame]
  obtain ⟨result, hresult, -, horder, -⟩ := (build manifests).loadOrder_cases hlength
  refine ⟨result, fun manifests' g fuel h hg hfuel => (hperm h hg fuel).trans (hresult fuel hfuel), fun order ho => ?_⟩
  obtain ⟨hnames, hfirst⟩ := horder order ho
  refine ⟨hnames.nodup_iff.mpr (build manifests).edges.keys_nodup, fun name => ?_, fun front a back hsplit b hb => ?_⟩
  · exact hnames.mem_iff.trans (mem_build manifests name)
  · exact hfirst front a back hsplit b ((mem_successors_iff (.refl _) hsame a b).mpr hb)

/-- The manifests of one name declaring the same known dependencies is exactly what keeps every
declaration in the graph, in whatever order the manifests come; then the load order follows them all. -/
theorem load_order_of_repeated_names (manifests : List PackageManifest) :
    (SameDependencies manifests ↔ ∀ manifests' : List PackageManifest, manifests'.Perm manifests →
      ∀ a b, Declares manifests a b → b ∈ (build manifests').successors a) ∧
    (SameDependencies manifests → LoadsInOrder manifests) :=
  ⟨sameDependencies_iff manifests, loadsInOrder_of_same⟩

def agreeingVersions : List PackageManifest :=
  [stubManifest "a" ["b"], { stubManifest "a" ["b"] with package := ⟨"a", .new 2 0 0, ⟨1, 0⟩⟩ }, stubManifest "b" []]

theorem load_order_of_repeated_names_agreeing : SameDependencies agreeingVersions ∧ LoadsInOrder agreeingVersions ∧
    (build agreeingVersions).loadOrder 3 = some (.ok ["b", "a"]) := by
  have hsame : SameDependencies agreeingVersions := by
    intro m hm m' hm' hname d _ hdep
    simp only [agreeingVersions, List.mem_cons, List.not_mem_nil, or_false] at hm hm'
    rcases hm with rfl | rfl | rfl <;> rcases hm' with rfl | rfl | rfl
    -- the packages of different names are none of one name
    case inl.inr.inr | inr.inl.inr.inr => exact absurd hname (by decide)
    case inr.inr.inl | inr.inr.inr.inl => exact absurd hname (by decide)
    all_goals exact hdep
  exact ⟨hsame, (load_order_of_repeated_names agreeingVersions).2 hsame, by decide⟩

/-- Version 2.0.0 of a package whose version 1.0.0 depends on `b` does not. -/
def twoVersions : List PackageManifest :=
  [stubManifest "a" ["b"], { stubManifest "a" [] with package := ⟨"a", .new 2 0 0, ⟨1, 0⟩⟩ }, stubManifest "b" []]

theorem two_versions_drop_dependency : ¬ LoadsInOrder twoVersions := by
  rintro ⟨result, hsame, horders⟩
  have hrun : (build twoVersions).loadOrder 3 = some (.ok ["a", "b"]) := by decide
  rw [hsame twoVersions _ 3 (.refl _) (.refl _) (by decide), Option.some.injEq] at hrun
  have hdeclares : Declares twoVersions "a" "b" :=
    ⟨⟨stubManifest "a" ["b"], by simp [twoVersions], rfl, by decide⟩, stubManifest "b" [], by simp [twoVersions], rfl⟩
  exact List.not_mem_nil ((horders _ hrun).first [] "a" ["b"] rfl "b" hdeclares)

end DependencyGraph
end Nyarix
