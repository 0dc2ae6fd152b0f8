import Nyarix.Loader.VersionResolver

/-! Conflict detection: the unresolved dependencies, told apart by whether the index holds the
name at all, and the manifests built against an incompatible Module API. -/

namespace Nyarix
open Semver (Version VersionReq)

inductive Conflict where
  | incompatibleVersions (name : String) (requirements : List Requirement)
  | missingDependency (name : String) (requirers : List String)
  | incompatibleApiVersion (module : String) (required declared : ApiVersion)
  deriving DecidableEq

def dependencyConflict (index : ModuleIndex) (c : VersionConflict) : Conflict :=
  if index.get c.name = [] then .missingDependency c.name (c.requirements.map (·.requirer))
  else .incompatibleVersions c.name c.requirements

def apiConflicts (manifests : List PackageManifest) (required : ApiVersion) : List Conflict :=
  manifests.filterMap fun manifest =>
    if isCompatible required manifest.package.apiVersion then none
    else some (.incompatibleApiVersion manifest.package.name required manifest.package.apiVersion)

def reportConflicts (r : ResolvedVersions) (manifests : List PackageManifest) (index : ModuleIndex)
    (required : ApiVersion) : List Conflict :=
  r.conflicts.map (dependencyConflict index) ++ apiConflicts manifests required

def detectConflicts [LinearOrder Version] (reqMatches : VersionReq → Version → Bool)
    (manifests : List PackageManifest) (index : ModuleIndex) (required : ApiVersion) : List Conflict :=
  reportConflicts (resolveVersions reqMatches manifests index) manifests index required

def Conflict.dependency : Conflict → Option String
  | .incompatibleVersions name _ | .missingDependency name _ => some name
  | .incompatibleApiVersion .. => none

structure PackageManifest.Same (m m' : PackageManifest) : Prop where
  package : m.package = m'.package
  dependencies : m.dependencies.entries.Perm m'.dependencies.entries

structure VersionConflict.Same (c c' : VersionConflict) : Prop where
  name : c.name = c'.name
  requirements : c.requirements.Perm c'.requirements

inductive Conflict.Same : Conflict → Conflict → Prop
  | incompatibleVersions {name : String} {reqs reqs' : List Requirement} (h : reqs.Perm reqs') :
    Same (.incompatibleVersions name reqs) (.incompatibleVersions name reqs')
  | missingDependency {name : String} {requirers requirers' : List String} (h : requirers.Perm requirers') :
    Same (.missingDependency name requirers) (.missingDependency name requirers')
  | incompatibleApiVersion {module : String} {required declared : ApiVersion} :
    Same (.incompatibleApiVersion module required declared) (.incompatibleApiVersion module required declared)

structure ResolvedVersions.Same (r r' : ResolvedVersions) : Prop where
  resolved : ∀ name, r.resolved.lookup name = r'.resolved.lookup name
  conflicts : Multiset.Rel VersionConflict.Same r.conflicts r'.conflicts
  unavailable : r.unavailableOptional.Perm r'.unavailableOptional

theorem filterMap_eq_of_rel {A B : Type*} {R : A → A → Prop} {f : A → Option B} (hf : ∀ a b, R a b → f a = f b)
    {s t : Multiset A} (h : Multiset.Rel R s t) : s.filterMap f = t.filterMap f := by
  induction h with
  | zero => rfl
  | @cons a b s t hab _ ih =>
    have hfab := hf a b hab
    cases hb : f b with
    | none => rw [Multiset.filterMap_cons_none _ _ (hfab.trans hb), Multiset.filterMap_cons_none _ _ hb, ih]
    | some c =>
      rw [Multiset.filterMap_cons_some f a s (hfab.trans hb), Multiset.filterMap_cons_some f b t hb, ih]

section Independence
variable {manifests manifests' : List PackageManifest}
  (h : Multiset.Rel PackageManifest.Same manifests' manifests)
include h

theorem requirementsOn_perm (name : String) :
    (requirementsOn manifests' name).Perm (requirementsOn manifests name) := by
  apply Multiset.coe_eq_coe.mp
  refine filterMap_eq_of_rel (f := fun manifest : PackageManifest => (manifest.dependencies.lookup name).map
    fun dep => (⟨manifest.package.name, dep.versionReq, dep.optional⟩ : Requirement)) (fun a b hab => ?_) h
  rw [hab.package, AList.perm_lookup hab.dependencies]

theorem isDependency_iff (name : String) : IsDependency manifests' name ↔ IsDependency manifests name := by
  rw [← requirementsOn_ne_nil, ← requirementsOn_ne_nil, ← List.length_pos_iff_ne_nil,
    ← List.length_pos_iff_ne_nil, (requirementsOn_perm h name).length_eq]

theorem suitable_congr (reqMatches : VersionReq → Version → Bool) (index : ModuleIndex) (name : String) :
    Suitable reqMatches index manifests' name = Suitable reqMatches index manifests name := by
  rw [← suitable_eq, ← suitable_eq]
  ext v
  apply and_congr_right
  intro _
  exact forall_congr' fun req => imp_congr_left (requirementsOn_perm h name).mem_iff

theorem allOptional_iff (name : String) : AllOptional manifests' name ↔ AllOptional manifests name := by
  have hsame : (∀ req ∈ requirementsOn manifests' name, req.optional = true) ↔
      ∀ req ∈ requirementsOn manifests name, req.optional = true :=
    forall_congr' fun req => imp_congr_left (requirementsOn_perm h name).mem_iff
  exact ((forall_requirementsOn (P := fun _ o => o = true)).symm.trans hsame).trans
    (forall_requirementsOn (P := fun _ o => o = true))

end Independence

section Results
variable [LinearOrder Version] {reqMatches : VersionReq → Version → Bool} {index : ModuleIndex}
  {manifests manifests' : List PackageManifest} {r r' : ResolvedVersions}

/-- Each dependency name is in exactly one of the three places, and no other name is in any. -/
structure InOnePlace (manifests : List PackageManifest) (r : ResolvedVersions) : Prop where
  somewhere : ∀ name, IsDependency manifests name ↔
    name ∈ r.resolved ∨ name ∈ r.conflicts.map (·.name) ∨ name ∈ r.unavailableOptional
  resolvedOnly : ∀ name ∈ r.resolved, name ∉ r.conflicts.map (·.name) ∧ name ∉ r.unavailableOptional
  conflictOnly : ∀ name ∈ r.conflicts.map (·.name), name ∉ r.unavailableOptional

theorem Resolves.inOnePlace (h : Resolves reqMatches index manifests r) :
    InOnePlace manifests r where
  somewhere name := by
    rw [h.found, h.conflicting, h.unavailable]
    tauto
  resolvedOnly name hname := by
    have hfound := (h.found name).mp hname
    rw [h.conflicting, h.unavailable]
    tauto
  conflictOnly name hname := by
    have hconflict := (h.conflicting name).mp hname
    rw [h.unavailable]
    tauto

theorem Resolves.satisfied (h : Resolves reqMatches index manifests r) (hnone : r.conflicts = [])
    {manifest : PackageManifest} (hm : manifest ∈ manifests) {name : String} {dep : DependencySpec}
    (hdep : manifest.dependencies.lookup name = some dep) (hrequired : dep.optional = false) :
    ∃ version, r.resolved.lookup name = some version ∧ index.Has name version ∧
      reqMatches dep.versionReq version = true := by
  have hname : IsDependency manifests name := ⟨manifest, hm, HashMap.mem_of_lookup hdep⟩
  have hnotAll : ¬ AllOptional manifests name := fun hall => by
    have hopt := hall manifest hm dep hdep
    rw [hrequired] at hopt
    cases hopt
  have hfound : (Suitable reqMatches index manifests name).Nonempty := by
    by_contra hempty
    have hconflict := (h.conflicting name).mpr ⟨hname, hempty, hnotAll⟩
    rw [hnone] at hconflict
    exact absurd hconflict List.not_mem_nil
  obtain ⟨version, hversion⟩ := Option.isSome_iff_exists.mp
    (AList.lookup_isSome.mpr ((h.found name).mpr ⟨hname, hfound⟩))
  obtain ⟨-, ⟨hhas, hmatches⟩, -⟩ := (h.resolved name version).mp hversion
  exact ⟨version, hversion, hhas, hmatches manifest hm dep hdep⟩

theorem Resolves.same (hrel : Multiset.Rel PackageManifest.Same manifests' manifests)
    (h' : Resolves reqMatches index manifests' r') (h : Resolves reqMatches index manifests r) : r'.Same r where
  resolved name := by
    apply Option.ext
    intro version
    rw [h'.resolved, h.resolved, isDependency_iff hrel, suitable_congr hrel]
  unavailable := by
    apply (List.perm_ext_iff_of_nodup h'.unavailableOnce h.unavailableOnce).mpr
    intro name
    rw [h'.unavailable, h.unavailable, isDependency_iff hrel, suitable_congr hrel, allOptional_iff hrel]
  conflicts := by
    have hnames : (r'.conflicts.map (·.name)).Perm (r.conflicts.map (·.name)) := by
      apply (List.perm_ext_iff_of_nodup h'.conflictsOnce h.conflictsOnce).mpr
      intro name
      rw [h'.conflicting, h.conflicting, isDependency_iff hrel, suitable_congr hrel, allOptional_iff hrel]
    -- a conflict is its name and what the manifests require of it
    have hrow (ms : List PackageManifest) (s : ResolvedVersions) (hs : Resolves reqMatches index ms s) :
        s.conflicts = (s.conflicts.map (·.name)).map fun name => ⟨name, requirementsOn ms name⟩ := by
      rw [List.map_map]
      refine (List.map_id' s.conflicts).symm.trans (List.map_congr_left fun c hc => ?_)
      exact congrArg (VersionConflict.mk c.name) (hs.requirements c hc)
    rw [hrow manifests' r' h', hrow manifests r h]
    change Multiset.Rel _
      (Multiset.map (fun name => VersionConflict.mk name (requirementsOn manifests' name))
        (r'.conflicts.map (·.name) : Multiset String))
      (Multiset.map (fun name => VersionConflict.mk name (requirementsOn manifests name))
        (r.conflicts.map (·.name) : Multiset String))
    rw [Multiset.rel_map, Multiset.coe_eq_coe.mpr hnames]
    exact Multiset.rel_refl_of_refl_on fun name _ => ⟨rfl, requirementsOn_perm hrel name⟩

omit [LinearOrder Version] in
theorem VersionConflict.Same.dependencyConflict {c c' : VersionConflict} (h : c.Same c') :
    (dependencyConflict index c).Same (Nyarix.dependencyConflict index c') := by
  unfold Nyarix.dependencyConflict
  rw [h.name]
  split_ifs
  · exact .missingDependency (h.requirements.map _)
  · exact .incompatibleVersions h.requirements

omit [LinearOrder Version] in
theorem reportConflicts_same (hrel : Multiset.Rel PackageManifest.Same manifests' manifests) (h : r'.Same r)
    (required : ApiVersion) : Multiset.Rel Conflict.Same (reportConflicts r' manifests' index required)
      (reportConflicts r manifests index required) := by
  have hdeps : Multiset.Rel Conflict.Same (Multiset.map (dependencyConflict index) r'.conflicts)
      (Multiset.map (dependencyConflict index) r.conflicts) :=
    Multiset.rel_map.mpr (h.conflicts.mono fun _ _ _ _ hc => hc.dependencyConflict)
  have hapi : (apiConflicts manifests' required : Multiset Conflict) = apiConflicts manifests required := by
    refine filterMap_eq_of_rel (f := fun manifest : PackageManifest =>
      if isCompatible required manifest.package.apiVersion then none
      else some (Conflict.incompatibleApiVersion manifest.package.name required manifest.package.apiVersion))
      (fun a b hab => ?_) hrel
    rw [hab.package]
  unfold reportConflicts
  rw [← Multiset.coe_add, ← Multiset.coe_add, ← Multiset.map_coe, ← Multiset.map_coe, hapi]
  apply hdeps.add
  apply Multiset.rel_refl_of_refl_on
  intro c hc
  obtain ⟨manifest, -, hc⟩ := List.mem_filterMap.mp hc
  split_ifs at hc
  obtain rfl := Option.some.inj hc
  exact .incompatibleApiVersion

/-- One dependency conflict for each unresolved name, which lists all that the manifests require of it. -/
structure Reports (index : ModuleIndex) (manifests : List PackageManifest) (r : ResolvedVersions)
    (conflicts : List Conflict) : Prop where
  once : conflicts.filterMap Conflict.dependency = r.conflicts.map (·.name)
  missing : ∀ name requirers, .missingDependency name requirers ∈ conflicts ↔
    name ∈ r.conflicts.map (·.name) ∧ index.get name = [] ∧
      requirers = (requirementsOn manifests name).map (·.requirer)
  incompatible : ∀ name reqs, .incompatibleVersions name reqs ∈ conflicts ↔
    name ∈ r.conflicts.map (·.name) ∧ index.get name ≠ [] ∧ reqs = requirementsOn manifests name

omit [LinearOrder Version] in
theorem dependency_apiConflicts (manifests : List PackageManifest) (required : ApiVersion) :
    ∀ c ∈ apiConflicts manifests required, c.dependency = none := by
  intro c hc
  obtain ⟨manifest, -, hc⟩ := List.mem_filterMap.mp hc
  split_ifs at hc
  obtain rfl := Option.some.inj hc
  rfl

omit [LinearOrder Version] in
theorem dependency_dependencyConflict (c : VersionConflict) :
    (dependencyConflict index c).dependency = some c.name := by
  unfold dependencyConflict
  split_ifs <;> rfl

theorem Resolves.reports (h : Resolves reqMatches index manifests r) (required : ApiVersion) :
    Reports index manifests r (reportConflicts r manifests index required) where
  once := by
    have hapi : (apiConflicts manifests required).filterMap Conflict.dependency = [] :=
      List.filterMap_eq_nil_iff.mpr (dependency_apiConflicts manifests required)
    rw [reportConflicts, List.filterMap_append, hapi, List.append_nil, List.filterMap_map, ← List.filterMap_eq_map]
    exact List.filterMap_congr fun c _ => dependency_dependencyConflict c
  missing name requirers := by
    have hapi : Conflict.missingDependency name requirers ∉ apiConflicts manifests required := fun hmem => by
      cases dependency_apiConflicts manifests required _ hmem
    rw [reportConflicts, List.mem_append, or_iff_left hapi]
    simp only [List.mem_map]
    constructor
    · rintro ⟨c, hc, heq⟩
      unfold dependencyConflict at heq
      split_ifs at heq with hget
      obtain ⟨rfl, rfl⟩ := Conflict.missingDependency.inj heq
      exact ⟨⟨c, hc, rfl⟩, hget, by rw [h.requirements c hc]⟩
    · rintro ⟨⟨c, hc, rfl⟩, hget, rfl⟩
      exact ⟨c, hc, by rw [dependencyConflict, if_pos hget, h.requirements c hc]⟩
  incompatible name reqs := by
    have hapi : Conflict.incompatibleVersions name reqs ∉ apiConflicts manifests required := fun hmem => by
      cases dependency_apiConflicts manifests required _ hmem
    rw [reportConflicts, List.mem_append, or_iff_left hapi]
    simp only [List.mem_map]
    constructor
    · rintro ⟨c, hc, heq⟩
      unfold dependencyConflict at heq
      split_ifs at heq with hget
      obtain ⟨rfl, rfl⟩ := Conflict.incompatibleVersions.inj heq
      exact ⟨⟨c, hc, rfl⟩, hget, h.requirements c hc⟩
    · rintro ⟨⟨c, hc, rfl⟩, hget, rfl⟩
      exact ⟨c, hc, by rw [dependencyConflict, if_neg hget, h.requirements c hc]⟩

/-- Version resolution places every dependency name once, resolves exactly those that some indexed
version suits, to the greatest such version, and reports the others; up to the order of lists nothing
depends on the order of the manifests, of their dependencies or of the collected names. -/
theorem resolve_versions_correct (reqMatches : VersionReq → Version → Bool) (manifests : List PackageManifest)
    (index : ModuleIndex) (required : ApiVersion) :
    Resolves reqMatches index manifests (resolveVersions reqMatches manifests index) ∧
      InOnePlace manifests (resolveVersions reqMatches manifests index) ∧
      ((resolveVersions reqMatches manifests index).conflicts = [] →
        ∀ manifest ∈ manifests, ∀ name dep, manifest.dependencies.lookup name = some dep → dep.optional = false →
          ∃ version, (resolveVersions reqMatches manifests index).resolved.lookup name = some version ∧
            index.Has name version ∧ reqMatches dep.versionReq version = true) ∧
      Reports index manifests (resolveVersions reqMatches manifests index)
        (detectConflicts reqMatches manifests index required) ∧
      ∀ (manifests' : List PackageManifest) (requirements : HashMap String (List Requirement)),
        Multiset.Rel PackageManifest.Same manifests' manifests →
        requirements.entries.Perm (collectRequirements manifests').entries →
        (resolveRequirements reqMatches index requirements).Same (resolveVersions reqMatches manifests index) ∧
          Multiset.Rel Conflict.Same
            (reportConflicts (resolveRequirements reqMatches index requirements) manifests' index required)
            (detectConflicts reqMatches manifests index required) := by
  have hresolves : Resolves reqMatches index manifests (resolveVersions reqMatches manifests index) :=
    resolveRequirements_resolves (List.Perm.refl _)
  refine ⟨hresolves, hresolves.inOnePlace, fun hnone manifest hm name dep hdep hrequired =>
    hresolves.satisfied hnone hm hdep hrequired, hresolves.reports required, fun manifests' requirements hrel hperm => ?_⟩
  have hsame := (resolveRequirements_resolves hperm).same hrel hresolves
  exact ⟨hsame, reportConflicts_same hrel hsame required⟩

end Results

end Nyarix
