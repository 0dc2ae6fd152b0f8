import Mathlib.Data.Multiset.ZeroCons
import Mathlib.Data.Multiset.Filter
import Mathlib.Order.Bounds.Basic
import Nyarix.Loader.ModuleIndex

/-! Version resolution: for each dependency name, the highest indexed version that every
requirement on it matches. How versions compare and what a requirement matches is the semver
crate's and stays a parameter. -/

namespace Nyarix
open Semver (Version VersionReq)

structure Requirement where
  requirer : String
  versionReq : VersionReq
  optional : Bool
  deriving DecidableEq

structure VersionConflict where
  name : String
  requirements : List Requirement

structure ResolvedVersions where
  resolved : HashMap String Version
  conflicts : List VersionConflict
  unavailableOptional : List String

def addRequirements (requirements : HashMap String (List Requirement)) (manifest : PackageManifest) :
    HashMap String (List Requirement) :=
  manifest.dependencies.entries.foldl (fun requirements dep =>
    HashMap.push dep.1 ⟨manifest.package.name, dep.2.versionReq, dep.2.optional⟩ requirements) requirements

def collectRequirements (manifests : List PackageManifest) : HashMap String (List Requirement) :=
  manifests.foldl addRequirements ∅

section Resolve
variable [LinearOrder Version] (reqMatches : VersionReq → Version → Bool)

def best (index : ModuleIndex) (name : String) (reqs : List Requirement) : Option Version :=
  (((index.get name).map (·.version)).filter fun version => reqs.all (reqMatches ·.versionReq version)).max?

def resolveName (index : ModuleIndex) (r : ResolvedVersions) (name : String) (reqs : List Requirement) :
    ResolvedVersions :=
  match best reqMatches index name reqs with
  | some version => { r with resolved := r.resolved.insert name version }
  | none =>
    if reqs.all (·.optional) then { r with unavailableOptional := r.unavailableOptional ++ [name] }
    else { r with conflicts := r.conflicts ++ [⟨name, reqs⟩] }

def resolveRequirements (index : ModuleIndex) (requirements : HashMap String (List Requirement)) :
    ResolvedVersions :=
  requirements.entries.foldl (fun r entry => resolveName reqMatches index r entry.1 entry.2) ⟨∅, [], []⟩

def resolveVersions (manifests : List PackageManifest) (index : ModuleIndex) : ResolvedVersions :=
  resolveRequirements reqMatches index (collectRequirements manifests)

end Resolve

def requirementsOn (manifests : List PackageManifest) (name : String) : List Requirement :=
  manifests.filterMap fun manifest => (manifest.dependencies.lookup name).map fun dep =>
    ⟨manifest.package.name, dep.versionReq, dep.optional⟩

theorem requirementsOn_cons (manifest : PackageManifest) (manifests : List PackageManifest) (name : String) :
    requirementsOn (manifest :: manifests) name =
      requirementsOn [manifest] name ++ requirementsOn manifests name := by
  unfold requirementsOn
  rw [← List.filterMap_append, List.singleton_append]

theorem requirementsOn_singleton (manifest : PackageManifest) (name : String) :
    requirementsOn [manifest] name = ((manifest.dependencies.lookup name).map fun dep =>
      ⟨manifest.package.name, dep.versionReq, dep.optional⟩).toList := by
  unfold requirementsOn
  cases h : manifest.dependencies.lookup name <;> simp [h]

theorem lookup_pushAll {K V W : Type*} [DecidableEq K] (f : W → V) {entries : List ((_ : K) × W)}
    (hnodup : entries.NodupKeys) (m : HashMap K (List V)) (k : K) :
    (entries.foldl (fun m e => HashMap.push e.1 (f e.2) m) m).lookup k =
      (entries.dlookup k).elim (m.lookup k) fun w => some ((m.lookup k).getD [] ++ [f w]) := by
  induction entries generalizing m with
  | nil => rfl
  | cons e entries ih =>
    obtain ⟨k', w⟩ := e
    rw [List.foldl_cons, ih (List.nodupKeys_of_nodupKeys_cons hnodup), HashMap.lookup_push]
    by_cases hk : k = k'
    · subst hk
      have hnone : entries.dlookup k = none :=
        List.dlookup_eq_none.mpr (List.notMem_keys_of_nodupKeys_cons hnodup)
      rw [hnone, List.dlookup_cons_eq, if_pos rfl]
      rfl
    · rw [List.dlookup_cons_ne _ _ hk, if_neg hk]

theorem lookup_addRequirements (requirements : HashMap String (List Requirement)) (manifest : PackageManifest)
    (name : String) : (addRequirements requirements manifest).lookup name =
      if requirementsOn [manifest] name = [] then requirements.lookup name
      else some ((requirements.lookup name).getD [] ++ requirementsOn [manifest] name) := by
  have hpush := lookup_pushAll (fun dep : DependencySpec =>
    (⟨manifest.package.name, dep.versionReq, dep.optional⟩ : Requirement)) manifest.dependencies.nodupKeys
    requirements name
  rw [requirementsOn_singleton]
  refine hpush.trans ?_
  change (manifest.dependencies.lookup name).elim _ _ = _
  cases manifest.dependencies.lookup name <;> rfl

theorem lookup_foldl_addRequirements (manifests : List PackageManifest)
    (requirements : HashMap String (List Requirement)) (name : String) :
    (manifests.foldl addRequirements requirements).lookup name =
      if requirementsOn manifests name = [] then requirements.lookup name
      else some ((requirements.lookup name).getD [] ++ requirementsOn manifests name) := by
  induction manifests generalizing requirements with
  | nil => rfl
  | cons manifest manifests ih =>
    rw [List.foldl_cons, ih, lookup_addRequirements, requirementsOn_cons manifest manifests]
    by_cases hfirst : requirementsOn [manifest] name = [] <;>
      by_cases hrest : requirementsOn manifests name = [] <;>
      simp [hfirst, hrest]

theorem lookup_collectRequirements (manifests : List PackageManifest) (name : String) :
    (collectRequirements manifests).lookup name =
      if requirementsOn manifests name = [] then none else some (requirementsOn manifests name) := by
  have hfold := lookup_foldl_addRequirements manifests ∅ name
  rw [AList.lookup_empty] at hfold
  exact hfold

section Resolve
variable [LinearOrder Version] (reqMatches : VersionReq → Version → Bool) (index : ModuleIndex)

/-- No indexed version of the name meets the requirements. -/
def Unresolved (entry : (_ : String) × List Requirement) : Prop :=
  best reqMatches index entry.1 entry.2 = none

instance (entry : (_ : String) × List Requirement) : Decidable (Unresolved reqMatches index entry) :=
  inferInstanceAs (Decidable (_ = _))

theorem best_eq_some {name : String} {reqs : List Requirement} {version : Version} :
    best reqMatches index name reqs = some version ↔
      IsGreatest {v | index.Has name v ∧ ∀ req ∈ reqs, reqMatches req.versionReq v = true} version := by
  rw [best, List.max?_eq_some_iff, IsGreatest, mem_upperBounds]
  simp only [List.mem_filter, List.mem_map, List.all_eq_true, Set.mem_ofPred_eq, ModuleIndex.Has]

theorem best_eq_none {name : String} {reqs : List Requirement} :
    best reqMatches index name reqs = none ↔
      ¬ ∃ v, index.Has name v ∧ ∀ req ∈ reqs, reqMatches req.versionReq v = true := by
  rw [best, List.max?_eq_none_iff, List.eq_nil_iff_forall_not_mem, not_exists]
  simp only [List.mem_filter, List.mem_map, List.all_eq_true, ModuleIndex.Has]

theorem foldl_resolveName (entries : List ((_ : String) × List Requirement)) (r : ResolvedVersions) :
    (entries.foldl (fun r entry => resolveName reqMatches index r entry.1 entry.2) r).conflicts =
        r.conflicts ++ (entries.filter fun e => Unresolved reqMatches index e ∧ ¬ e.2.all (·.optional)).map
          (fun e => ⟨e.1, e.2⟩) ∧
      (entries.foldl (fun r entry => resolveName reqMatches index r entry.1 entry.2) r).unavailableOptional =
        r.unavailableOptional ++
          (entries.filter fun e => Unresolved reqMatches index e ∧ e.2.all (·.optional)).map (·.1) := by
  induction entries generalizing r with
  | nil => exact ⟨(List.append_nil _).symm, (List.append_nil _).symm⟩
  | cons e entries ih =>
    obtain ⟨hconflicts, hunavailable⟩ := ih (resolveName reqMatches index r e.1 e.2)
    rw [List.foldl_cons, hconflicts, hunavailable]
    unfold resolveName
    cases hbest : best reqMatches index e.1 e.2 with
    | some version =>
      have hresolved : ¬ Unresolved reqMatches index e := by simp [Unresolved, hbest]
      rw [List.filter_cons_of_neg (by simp [hresolved]), List.filter_cons_of_neg (by simp [hresolved])]
      exact ⟨rfl, rfl⟩
    | none =>
      have hunresolved : Unresolved reqMatches index e := hbest
      by_cases hall : e.2.all (·.optional)
      · rw [List.filter_cons_of_neg (by simp [hall]), List.filter_cons_of_pos (by simp [hall, hunresolved])]
        simp only [hall, if_true, List.append_assoc, List.map_cons, List.singleton_append, and_self]
      · rw [List.filter_cons_of_pos (by simp [hall, hunresolved]), List.filter_cons_of_neg (by simp [hall])]
        simp only [hall, Bool.false_eq_true, if_false, List.append_assoc, List.map_cons, List.singleton_append,
          and_self]

theorem lookup_foldl_resolveName {entries : List ((_ : String) × List Requirement)} (hnodup : entries.NodupKeys)
    (r : ResolvedVersions) (name : String) :
    (entries.foldl (fun r entry => resolveName reqMatches index r entry.1 entry.2) r).resolved.lookup name =
      ((entries.dlookup name).bind (best reqMatches index name)).or (r.resolved.lookup name) := by
  induction entries generalizing r with
  | nil => rfl
  | cons e entries ih =>
    obtain ⟨first, reqs⟩ := e
    rw [List.foldl_cons, ih (List.nodupKeys_of_nodupKeys_cons hnodup)]
    have hfirst : (resolveName reqMatches index r first reqs).resolved.lookup name =
        if name = first then (best reqMatches index first reqs).or (r.resolved.lookup name)
        else r.resolved.lookup name := by
      unfold resolveName
      cases hbest : best reqMatches index first reqs with
      | some version =>
        by_cases hname : name = first
        · subst hname
          simp
        · simp [hname, AList.lookup_insert_ne hname]
      | none =>
        by_cases hall : reqs.all (·.optional) <;> by_cases hname : name = first <;> simp [hall, hname]
    rw [hfirst]
    by_cases hname : name = first
    · subst hname
      have hnone : entries.dlookup name = none :=
        List.dlookup_eq_none.mpr (List.notMem_keys_of_nodupKeys_cons hnodup)
      rw [hnone, List.dlookup_cons_eq, if_pos rfl]
      rfl
    · rw [List.dlookup_cons_ne _ _ hname, if_neg hname]

def IsDependency (manifests : List PackageManifest) (name : String) : Prop :=
  ∃ manifest ∈ manifests, name ∈ manifest.dependencies

def Suitable (manifests : List PackageManifest) (name : String) : Set Version :=
  {version | index.Has name version ∧ ∀ manifest ∈ manifests, ∀ dep,
    manifest.dependencies.lookup name = some dep → reqMatches dep.versionReq version = true}

def AllOptional (manifests : List PackageManifest) (name : String) : Prop :=
  ∀ manifest ∈ manifests, ∀ dep, manifest.dependencies.lookup name = some dep → dep.optional = true

/-- Each dependency name is in one place: resolved to its greatest suitable version if there is one,
otherwise unavailable if all requirements on it are optional, and in conflict if not. -/
structure Resolves (manifests : List PackageManifest) (r : ResolvedVersions) : Prop where
  resolved : ∀ name version, r.resolved.lookup name = some version ↔
    IsDependency manifests name ∧ IsGreatest (Suitable reqMatches index manifests name) version
  found : ∀ name, name ∈ r.resolved ↔
    IsDependency manifests name ∧ (Suitable reqMatches index manifests name).Nonempty
  unavailable : ∀ name, name ∈ r.unavailableOptional ↔
    IsDependency manifests name ∧ ¬ (Suitable reqMatches index manifests name).Nonempty ∧ AllOptional manifests name
  conflicting : ∀ name, name ∈ r.conflicts.map (·.name) ↔
    IsDependency manifests name ∧ ¬ (Suitable reqMatches index manifests name).Nonempty ∧
      ¬ AllOptional manifests name
  requirements : ∀ c ∈ r.conflicts, c.requirements = requirementsOn manifests c.name
  unavailableOnce : r.unavailableOptional.Nodup
  conflictsOnce : (r.conflicts.map (·.name)).Nodup

omit [LinearOrder Version] in
theorem requirementsOn_ne_nil {manifests : List PackageManifest} {name : String} :
    requirementsOn manifests name ≠ [] ↔ IsDependency manifests name := by
  constructor
  · intro hne
    obtain ⟨req, hreq⟩ := List.exists_mem_of_ne_nil _ hne
    obtain ⟨manifest, hm, hdep⟩ := List.mem_filterMap.mp hreq
    obtain ⟨dep, hdep, -⟩ := Option.map_eq_some_iff.mp hdep
    exact ⟨manifest, hm, HashMap.mem_of_lookup hdep⟩
  · rintro ⟨manifest, hm, hname⟩
    obtain ⟨dep, hdep⟩ := HashMap.exists_of_mem hname
    apply List.ne_nil_of_mem
    exact List.mem_filterMap.mpr ⟨manifest, hm, Option.map_eq_some_iff.mpr ⟨dep, hdep, rfl⟩⟩

omit [LinearOrder Version] in
theorem forall_requirementsOn {manifests : List PackageManifest} {name : String} {P : VersionReq → Bool → Prop} :
    (∀ req ∈ requirementsOn manifests name, P req.versionReq req.optional) ↔
      ∀ manifest ∈ manifests, ∀ dep, manifest.dependencies.lookup name = some dep →
        P dep.versionReq dep.optional := by
  simp only [requirementsOn, List.mem_filterMap, Option.map_eq_some_iff]
  constructor
  · intro h manifest hm dep hdep
    exact h _ ⟨manifest, hm, dep, hdep, rfl⟩
  · rintro h req ⟨manifest, hm, dep, hdep, rfl⟩
    exact h manifest hm dep hdep

omit [LinearOrder Version] in
theorem suitable_eq (manifests : List PackageManifest) (name : String) :
    {v | index.Has name v ∧ ∀ req ∈ requirementsOn manifests name, reqMatches req.versionReq v = true} =
      Suitable reqMatches index manifests name := by
  ext v
  apply and_congr_right
  intro _
  exact forall_requirementsOn (P := fun req _ => reqMatches req v = true)

theorem unresolved_requirementsOn (manifests : List PackageManifest) (name : String) :
    Unresolved reqMatches index ⟨name, requirementsOn manifests name⟩ ↔
      ¬ (Suitable reqMatches index manifests name).Nonempty := by
  rw [Unresolved, best_eq_none, ← suitable_eq]
  rfl

theorem exists_isGreatest {manifests : List PackageManifest} {name : String}
    (h : (Suitable reqMatches index manifests name).Nonempty) :
    ∃ version, IsGreatest (Suitable reqMatches index manifests name) version := by
  have hbest : ¬ Unresolved reqMatches index ⟨name, requirementsOn manifests name⟩ := fun hnone =>
    (unresolved_requirementsOn reqMatches index manifests name).mp hnone h
  obtain ⟨version, hversion⟩ := Option.ne_none_iff_exists'.mp hbest
  rw [best_eq_some, suitable_eq] at hversion
  exact ⟨version, hversion⟩

section Spec
variable {reqMatches index} {manifests : List PackageManifest} {requirements : HashMap String (List Requirement)}
  (hreqs : requirements.entries.Perm (collectRequirements manifests).entries)
include hreqs

omit [LinearOrder Version] in
theorem mem_requirements {name : String} {reqs : List Requirement} :
    (⟨name, reqs⟩ : (_ : String) × List Requirement) ∈ requirements.entries ↔
      IsDependency manifests name ∧ reqs = requirementsOn manifests name := by
  rw [hreqs.mem_iff, ← AList.mem_lookup_iff, lookup_collectRequirements, ← requirementsOn_ne_nil]
  by_cases hnil : requirementsOn manifests name = []
  · simp [hnil]
  · simp [hnil, eq_comm]

omit [LinearOrder Version] in
theorem mem_filter_requirements (p : (_ : String) × List Requirement → Bool) (name : String) :
    name ∈ (requirements.entries.filter p).map (·.1) ↔
      IsDependency manifests name ∧ p ⟨name, requirementsOn manifests name⟩ = true := by
  simp only [List.mem_map, List.mem_filter]
  constructor
  · rintro ⟨⟨first, reqs⟩, ⟨hmem, hp⟩, rfl⟩
    obtain ⟨hdep, rfl⟩ := (mem_requirements hreqs).mp hmem
    exact ⟨hdep, hp⟩
  · rintro ⟨hdep, hp⟩
    exact ⟨_, ⟨(mem_requirements hreqs).mpr ⟨hdep, rfl⟩, hp⟩, rfl⟩

theorem best_requirementsOn (name : String) (version : Version) :
    (requirements.lookup name).bind (best reqMatches index name) = some version ↔
      IsDependency manifests name ∧ IsGreatest (Suitable reqMatches index manifests name) version := by
  rw [AList.perm_lookup hreqs, lookup_collectRequirements, ← requirementsOn_ne_nil]
  by_cases hnil : requirementsOn manifests name = []
  · simp [hnil]
  · rw [if_neg hnil, Option.bind_some, best_eq_some, suitable_eq]
    exact (and_iff_right hnil).symm

theorem resolveRequirements_resolves :
    Resolves reqMatches index manifests (resolveRequirements reqMatches index requirements) := by
  obtain ⟨hconflicts, hunavailable⟩ := foldl_resolveName reqMatches index requirements.entries ⟨∅, [], []⟩
  rw [List.nil_append] at hconflicts hunavailable
  have hlookup (name : String) := lookup_foldl_resolveName reqMatches index requirements.nodupKeys
    ⟨∅, [], []⟩ name
  have hall (name : String) : (requirementsOn manifests name).all (·.optional) = true ↔
      AllOptional manifests name := by
    rw [List.all_eq_true]
    exact forall_requirementsOn (P := fun _ optional => optional = true)
  have hresolved (name : String) (version : Version) :
      (resolveRequirements reqMatches index requirements).resolved.lookup name = some version ↔
        IsDependency manifests name ∧ IsGreatest (Suitable reqMatches index manifests name) version := by
    rw [← best_requirementsOn hreqs, resolveRequirements, hlookup, AList.lookup_empty, Option.or_none]
    rfl
  -- from what one turn of the loop does to a name: resolved, unavailable or in conflict, once each
  refine ⟨hresolved, fun name => ?_, fun name => ?_, fun name => ?_, fun c hc => ?_, ?_, ?_⟩
  · rw [← AList.lookup_isSome, Option.isSome_iff_exists]
    constructor
    · rintro ⟨version, hversion⟩
      obtain ⟨hdep, hgreatest⟩ := (hresolved name version).mp hversion
      exact ⟨hdep, hgreatest.nonempty⟩
    · rintro ⟨hdep, hsome⟩
      obtain ⟨version, hgreatest⟩ := exists_isGreatest reqMatches index hsome
      exact ⟨version, (hresolved name version).mpr ⟨hdep, hgreatest⟩⟩
  · rw [resolveRequirements, hunavailable, mem_filter_requirements hreqs, decide_eq_true_eq,
      unresolved_requirementsOn, hall]
  · rw [resolveRequirements, hconflicts, List.map_map]
    refine (mem_filter_requirements hreqs _ name).trans ?_
    rw [decide_eq_true_eq, unresolved_requirementsOn, hall]
  · rw [resolveRequirements, hconflicts] at hc
    obtain ⟨e, he, rfl⟩ := List.mem_map.mp hc
    exact ((mem_requirements hreqs).mp (List.mem_filter.mp he).1).2
  · rw [resolveRequirements, hunavailable]
    exact requirements.nodupKeys.sublist List.filter_sublist
  · rw [resolveRequirements, hconflicts, List.map_map]
    exact requirements.nodupKeys.sublist List.filter_sublist

end Spec

end Resolve

end Nyarix
