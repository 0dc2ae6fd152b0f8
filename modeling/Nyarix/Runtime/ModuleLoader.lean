import Nyarix.Loader.Discovery
import Nyarix.Loader.Validation

/-! Loading the modules of a set of directories: every package found is read again, validated
against the manifests of all the others, and its report narrowed down to its own conflicts. -/

namespace Nyarix
open Semver (Version VersionReq)

structure LoadedPackage where
  path : UnixPath
  data : ByteArray
  validation : ValidationReport

structure RejectedPackage where
  path : UnixPath
  validation : ValidationReport

structure ModuleLoadReport where
  valid : List LoadedPackage
  invalid : List RejectedPackage
  errors : List ScanError

/-- Whether a conflict names the package: as a requirer, or as the module of another API version. -/
def conflictInvolves (name : String) : Conflict → Bool
  | .incompatibleVersions _ requirements => requirements.any (·.requirer = name)
  | .missingDependency _ requirers => requirers.any (· = name)
  | .incompatibleApiVersion module _ _ => module = name

structure Candidate where
  path : UnixPath
  data : ByteArray

section Load
variable (read : UnixPath → Except IoError ByteArray) (index : ModuleIndex)

def candidates : List Candidate :=
  index.listed.filterMap fun discovered =>
    match read discovered.path with
    | .ok data => some ⟨discovered.path, data⟩
    | .error _ => none

def readErrors : List ScanError :=
  index.listed.filterMap fun discovered =>
    match read discovered.path with
    | .ok _ => none
    | .error source => some ⟨discovered.path, ioError discovered.path source⟩

def openManifest (codec : Codec) (data : ByteArray) : Option PackageManifest :=
  match PackageReader.openArchive codec data with
  | .ok reader => some reader.manifest
  | .error _ => none

inductive Verdict where
  | valid (package : LoadedPackage)
  | invalid (package : RejectedPackage)
  | error (error : ScanError)

def ModuleLoadReport.record (report : ModuleLoadReport) : Verdict → ModuleLoadReport
  | .valid package => { report with valid := report.valid ++ [package] }
  | .invalid package => { report with invalid := report.invalid ++ [package] }
  | .error e => { report with errors := report.errors ++ [e] }

variable [LinearOrder Version] (env : Validating)

def judge (manifests : List (Option PackageManifest)) (candidate : Candidate) (position : Nat) : Verdict :=
  let ownName := (manifests[position]?.join).map (·.package.name)
  let otherManifests := (manifests.eraseIdx position).filterMap id
  match validatePackage env candidate.data otherManifests index with
  | .error e => .error ⟨candidate.path, e⟩
  | .ok validation =>
    let validation := match ownName with
      | some name => { validation with conflicts := validation.conflicts.filter (conflictInvolves name) }
      | none => validation
    if validation.isValid then .valid ⟨candidate.path, candidate.data, validation⟩
    else .invalid ⟨candidate.path, validation⟩

def loadScanned (scanErrors : List ScanError) : ModuleLoadReport :=
  let found := candidates read index
  let manifests := found.map fun candidate => openManifest env.checking.codec candidate.data
  (found.zipIdx.map fun (candidate, position) => judge index env manifests candidate position).foldl
    ModuleLoadReport.record ⟨[], [], scanErrors ++ readErrors read index⟩

/-- The files may have changed since the scan when they are read again. -/
def loadModules (files : ModuleFiles) (directories : List UnixPath) : ModuleLoadReport :=
  let scan := scanDirectories env.checking.codec files directories
  loadScanned read scan.index env scan.errors

end Load

/-- No indexed version suits the name, and some manifest cannot do without it. -/
def InConflict (reqMatches : VersionReq → Version → Bool) (index : ModuleIndex) (manifests : List PackageManifest)
    (name : String) : Prop :=
  IsDependency manifests name ∧ ¬ (Suitable reqMatches index manifests name).Nonempty ∧
    ¬ AllOptional manifests name

/-- The package's own Module API version is compatible, and none of its own dependencies is in
conflict over all manifests. -/
structure Blameless (env : Validating) (index : ModuleIndex) (manifests : List PackageManifest)
    (manifest : PackageManifest) : Prop where
  api : isCompatible env.requiredApiVersion manifest.package.apiVersion = true
  dependencies : ∀ name ∈ manifest.dependencies, ¬ InConflict env.reqMatches index manifests name

section Blame
variable [LinearOrder Version] {env : Validating} {index : ModuleIndex} {manifests : List PackageManifest}

omit [LinearOrder Version] in
theorem mem_requirers {name dependency : String} :
    name ∈ (requirementsOn manifests dependency).map (·.requirer) ↔
      ∃ manifest ∈ manifests, manifest.package.name = name ∧ dependency ∈ manifest.dependencies := by
  simp only [requirementsOn, List.mem_map, List.mem_filterMap, Option.map_eq_some_iff]
  constructor
  · rintro ⟨req, ⟨manifest, hm, dep, hdep, rfl⟩, rfl⟩
    exact ⟨manifest, hm, rfl, HashMap.mem_of_lookup hdep⟩
  · rintro ⟨manifest, hm, rfl, hdep⟩
    obtain ⟨dep, hdep⟩ := HashMap.exists_of_mem hdep
    exact ⟨_, ⟨manifest, hm, dep, hdep, rfl⟩, rfl⟩

omit [LinearOrder Version] in
theorem any_requirer {name dependency : String} :
    (requirementsOn manifests dependency).any (·.requirer = name) = true ↔
      name ∈ (requirementsOn manifests dependency).map (·.requirer) := by
  simp only [List.any_eq_true, decide_eq_true_eq, List.mem_map]

omit [LinearOrder Version] in
theorem mem_apiConflicts {module : String} {required required' declared : ApiVersion} :
    .incompatibleApiVersion module required' declared ∈ apiConflicts manifests required ↔
      required' = required ∧ ∃ manifest ∈ manifests, isCompatible required manifest.package.apiVersion = false ∧
        manifest.package.name = module ∧ manifest.package.apiVersion = declared := by
  rw [apiConflicts, List.mem_filterMap]
  constructor
  · rintro ⟨manifest, hm, hsome⟩
    split_ifs at hsome with hcompatible
    obtain ⟨rfl, rfl, rfl⟩ := Conflict.incompatibleApiVersion.inj (Option.some.inj hsome)
    exact ⟨rfl, manifest, hm, by simpa using hcompatible, rfl, rfl⟩
  · rintro ⟨rfl, manifest, hm, hcompatible, rfl, rfl⟩
    exact ⟨manifest, hm, by rw [hcompatible]; rfl⟩

theorem conflictInvolves_detectConflicts (name : String) :
    (∀ c ∈ detectConflicts env.reqMatches manifests index env.requiredApiVersion, conflictInvolves name c = false) ↔
      ∀ manifest ∈ manifests, manifest.package.name = name → Blameless env index manifests manifest := by
  have hresolves : Resolves env.reqMatches index manifests (resolveVersions env.reqMatches manifests index) :=
    resolveRequirements_resolves (List.Perm.refl _)
  have hreports := hresolves.reports env.requiredApiVersion
  change (∀ c ∈ reportConflicts _ _ _ _, _) ↔ _
  constructor
  · rintro hnone manifest hm rfl
    refine ⟨?_, fun dependency hdep hconflict => ?_⟩
    · by_contra hcompatible
      have hmem : .incompatibleApiVersion manifest.package.name env.requiredApiVersion manifest.package.apiVersion ∈
          apiConflicts manifests env.requiredApiVersion :=
        mem_apiConflicts.mpr ⟨rfl, manifest, hm, by simpa using hcompatible, rfl, rfl⟩
      have hinvolves := hnone _ (List.mem_append_right _ hmem)
      simp [conflictInvolves] at hinvolves
    · -- a name in conflict is reported as missing or as incompatible, by what the index has of it
      have hname := (hresolves.conflicting dependency).mpr hconflict
      have hrequirer := mem_requirers.mpr ⟨manifest, hm, rfl, hdep⟩
      by_cases hget : index.get dependency = []
      · have hinvolves := hnone _ ((hreports.missing _ _).mpr ⟨hname, hget, rfl⟩)
        simp only [conflictInvolves, List.any_eq_false, decide_eq_true_eq] at hinvolves
        exact hinvolves _ hrequirer rfl
      · have hinvolves := hnone _ ((hreports.incompatible _ _).mpr ⟨hname, hget, rfl⟩)
        rw [conflictInvolves, any_requirer.mpr hrequirer] at hinvolves
        cases hinvolves
  · intro hall c hc
    by_contra hinvolves
    rw [Bool.not_eq_false] at hinvolves
    cases c with
    | incompatibleVersions dependency reqs =>
      obtain ⟨hname, -, rfl⟩ := (hreports.incompatible _ _).mp hc
      obtain ⟨manifest, hm, hown, hdep⟩ := mem_requirers.mp (any_requirer.mp hinvolves)
      exact (hall manifest hm hown).dependencies dependency hdep ((hresolves.conflicting dependency).mp hname)
    | missingDependency dependency requirers =>
      obtain ⟨hname, -, rfl⟩ := (hreports.missing _ _).mp hc
      simp only [conflictInvolves, List.any_eq_true, decide_eq_true_eq, exists_eq_right] at hinvolves
      obtain ⟨manifest, hm, hown, hdep⟩ := mem_requirers.mp hinvolves
      exact (hall manifest hm hown).dependencies dependency hdep ((hresolves.conflicting dependency).mp hname)
    | incompatibleApiVersion module required declared =>
      -- the other reports name a dependency, so this one comes from the check of API versions
      have hapi : .incompatibleApiVersion module required declared ∈ apiConflicts manifests env.requiredApiVersion := by
        refine (List.mem_append.mp hc).resolve_left fun hdep => ?_
        obtain ⟨conflict, -, hconflict⟩ := List.mem_map.mp hdep
        have hdependency : (dependencyConflict index conflict).dependency = some conflict.name :=
          dependency_dependencyConflict conflict
        rw [hconflict] at hdependency
        cases hdependency
      obtain ⟨-, manifest, hm, hcompatible, hname, -⟩ := mem_apiConflicts.mp hapi
      have hown := of_decide_eq_true hinvolves
      have hblameless := (hall manifest hm (hname.trans hown)).api
      rw [hcompatible] at hblameless
      cases hblameless

omit [LinearOrder Version] in
theorem blameless_perm {manifests' : List PackageManifest} (hperm : manifests'.Perm manifests)
    (manifest : PackageManifest) : Blameless env index manifests' manifest ↔ Blameless env index manifests manifest := by
  have hrel : Multiset.Rel PackageManifest.Same manifests' manifests := by
    rw [Multiset.coe_eq_coe.mpr hperm]
    exact Multiset.rel_refl_of_refl_on fun m _ => ⟨rfl, List.Perm.refl _⟩
  have hconflict (name : String) : InConflict env.reqMatches index manifests' name ↔
      InConflict env.reqMatches index manifests name := by
    rw [InConflict, InConflict, isDependency_iff hrel, suitable_congr hrel, allOptional_iff hrel]
  constructor
  · intro h
    exact ⟨h.api, fun name hname => mt (hconflict name).mpr (h.dependencies name hname)⟩
  · intro h
    exact ⟨h.api, fun name hname => mt (hconflict name).mp (h.dependencies name hname)⟩

end Blame

def Verdict.path : Verdict → UnixPath
  | .valid package => package.path
  | .invalid package => package.path
  | .error e => e.path

def Verdict.loaded : Verdict → Option LoadedPackage
  | .valid package => some package
  | .invalid _ | .error _ => none

def Verdict.rejected : Verdict → Option RejectedPackage
  | .invalid package => some package
  | .valid _ | .error _ => none

def Verdict.failed : Verdict → Option ScanError
  | .error e => some e
  | .valid _ | .invalid _ => none

def ModuleLoadReport.paths (report : ModuleLoadReport) : List UnixPath :=
  report.valid.map (·.path) ++ report.invalid.map (·.path) ++ report.errors.map (·.path)

theorem record_paths (verdicts : List Verdict) (report : ModuleLoadReport) :
    (verdicts.foldl ModuleLoadReport.record report).paths.Perm (report.paths ++ verdicts.map Verdict.path) := by
  induction verdicts generalizing report with
  | nil => rw [List.foldl_nil, List.map_nil, List.append_nil]
  | cons verdict verdicts ih =>
    have hfirst : (report.record verdict).paths.Perm (report.paths ++ [verdict.path]) := by
      cases verdict <;>
        simp only [ModuleLoadReport.record, ModuleLoadReport.paths, Verdict.path, List.map_append, List.map_singleton,
          List.append_assoc] <;> grind
    rw [List.foldl_cons, List.map_cons]
    refine (ih (report.record verdict)).trans ((hfirst.append_right _).trans ?_)
    rw [List.append_assoc, List.singleton_append]

theorem foldl_record (verdicts : List Verdict) (report : ModuleLoadReport) :
    verdicts.foldl ModuleLoadReport.record report = ⟨report.valid ++ verdicts.filterMap Verdict.loaded,
      report.invalid ++ verdicts.filterMap Verdict.rejected, report.errors ++ verdicts.filterMap Verdict.failed⟩ := by
  induction verdicts generalizing report with
  | nil => simp only [List.foldl_nil, List.filterMap_nil, List.append_nil]
  | cons verdict verdicts ih =>
    rw [List.foldl_cons, ih]
    cases verdict <;>
      simp [ModuleLoadReport.record, Verdict.loaded, Verdict.rejected, Verdict.failed, List.filterMap_cons]

theorem record_valid (verdicts : List Verdict) (report : ModuleLoadReport) :
    (verdicts.foldl ModuleLoadReport.record report).valid = report.valid ++ verdicts.filterMap Verdict.loaded := by
  rw [foldl_record]

section Judge
variable [LinearOrder Version] {env : Validating} {index : ModuleIndex}

theorem judge_path (manifests : List (Option PackageManifest)) (candidate : Candidate) (position : Nat) :
    (judge index env manifests candidate position).path = candidate.path := by
  unfold judge
  dsimp only
  split
  · rfl
  · split_ifs <;> rfl

theorem judge_loaded {manifests : List (Option PackageManifest)} {candidate : Candidate} {position : Nat}
    {manifest : PackageManifest} (hopen : Opens env.checking.codec candidate.data manifest)
    (hposition : manifests[position]? = some (some manifest)) :
    (judge index env manifests candidate position).loaded.isSome ↔ platformSupported env manifest = true ∧
      ∀ other ∈ manifests.filterMap id, other.package.name = manifest.package.name →
        Blameless env index (manifests.filterMap id) other := by
  obtain ⟨hlt, hget⟩ := List.getElem?_eq_some_iff.mp hposition
  have hperm : ((manifests.eraseIdx position).filterMap id ++ [manifest]).Perm (manifests.filterMap id) := by
    have hcons := (List.getElem_cons_eraseIdx_perm hlt).filterMap id
    rw [hget] at hcons
    exact (List.perm_append_singleton _ _).trans hcons
  obtain ⟨status, level, hvalidate⟩ := validatePackage_of_opens hopen
    ((manifests.eraseIdx position).filterMap id) index
  have hblame : (detectConflicts env.reqMatches ((manifests.eraseIdx position).filterMap id ++ [manifest]) index
      env.requiredApiVersion).filter (conflictInvolves manifest.package.name) = [] ↔
        ∀ other ∈ manifests.filterMap id, other.package.name = manifest.package.name →
          Blameless env index (manifests.filterMap id) other := by
    rw [List.filter_eq_nil_iff]
    simp only [Bool.not_eq_true]
    rw [conflictInvolves_detectConflicts]
    simp only [hperm.mem_iff, blameless_perm hperm]
  rw [← hblame, judge, hposition, hvalidate]
  simp only [Option.join_some, Option.map_some, ValidationReport.isValid, Bool.and_eq_true,
    List.isEmpty_iff]
  split_ifs with hvalid
  · exact iff_of_true rfl hvalid.symm
  · exact iff_of_false Bool.false_ne_true fun h => hvalid h.symm

def manifestsOf (codec : Codec) (found : List Candidate) : List PackageManifest :=
  found.filterMap fun candidate => openManifest codec candidate.data

/-- Each candidate is in one of the three lists, and one that opens is valid exactly when its own
platform, its own API version and its own dependencies are in order. -/
structure OnOwnAccount (env : Validating) (index : ModuleIndex) (found : List Candidate)
    (report : ModuleLoadReport) : Prop where
  once : ∀ candidate ∈ found, report.paths.count candidate.path = 1
  valid : ∀ candidate ∈ found, ∀ manifest, Opens env.checking.codec candidate.data manifest →
    ((∃ loaded ∈ report.valid, loaded.path = candidate.path) ↔ platformSupported env manifest = true ∧
      Blameless env index (manifestsOf env.checking.codec found) manifest)

/-- No candidate that is in order itself shares its name with one that is not. -/
def NamesakesBlameless (env : Validating) (index : ModuleIndex) (found : List Candidate) : Prop :=
  ∀ candidate ∈ found, ∀ manifest, Opens env.checking.codec candidate.data manifest →
    platformSupported env manifest = true → Blameless env index (manifestsOf env.checking.codec found) manifest →
    ∀ other ∈ manifestsOf env.checking.codec found, other.package.name = manifest.package.name →
      Blameless env index (manifestsOf env.checking.codec found) other

omit [LinearOrder Version] in
theorem openManifest_of_opens {codec : Codec} {data : ByteArray} {manifest : PackageManifest}
    (h : Opens codec data manifest) : openManifest codec data = some manifest := by
  obtain ⟨reader, entries, hopen, -, rfl⟩ := h
  rw [openManifest, hopen]

omit [LinearOrder Version] in
theorem candidates_paths (read : UnixPath → Except IoError ByteArray) (listed : List DiscoveredPackage) :
    ((listed.filterMap fun discovered =>
      match read discovered.path with
      | .ok data => some (Candidate.mk discovered.path data)
      | .error _ => none).map (·.path)).Sublist (listed.map (·.path)) := by
  induction listed with
  | nil => exact List.Sublist.refl _
  | cons discovered listed ih =>
    cases hread : read discovered.path with
    | error e =>
      rw [List.filterMap_cons_none (by simp only [hread])]
      exact ih.cons _
    | ok data =>
      rw [List.filterMap_cons_some (by simp only [hread]; rfl)]
      exact ih.cons_cons _

variable {read : UnixPath → Except IoError ByteArray} {files : ModuleFiles} {report : ScanReport}

omit [LinearOrder Version] in
theorem loaded_path {verdict : Verdict} {package : LoadedPackage} (h : verdict.loaded = some package) :
    package.path = verdict.path := by
  cases verdict with
  | valid other => rw [← Option.some.inj h, Verdict.path]
  | invalid _ => cases h
  | error _ => cases h

theorem loadScanned_valid (hscan : Scanned env.checking.codec files report) {candidate : Candidate} {position : Nat}
    (hposition : (candidates read report.index)[position]? = some candidate) (errors : List ScanError) :
    (∃ loaded ∈ (loadScanned read report.index env errors).valid, loaded.path = candidate.path) ↔
      (judge report.index env ((candidates read report.index).map fun candidate =>
        openManifest env.checking.codec candidate.data) candidate position).loaded.isSome := by
  have hnodup : ((candidates read report.index).map (·.path)).Nodup :=
    hscan.paths_nodup.sublist (candidates_paths read _)
  rw [loadScanned, record_valid, List.nil_append]
  constructor
  · rintro ⟨loaded, hloaded, hpath⟩
    obtain ⟨verdict, hverdict, hsome⟩ := List.mem_filterMap.mp hloaded
    obtain ⟨⟨other, position'⟩, hmem, rfl⟩ := List.mem_map.mp hverdict
    have hother : (candidates read report.index)[position']? = some other := List.mem_zipIdx_iff_getElem?.mp hmem
    have hsame : other.path = candidate.path := by
      rw [← hpath, loaded_path hsome]
      exact (judge_path _ _ _).symm
    obtain rfl : position' = position := by
      have hlt : position' < ((candidates read report.index).map (·.path)).length := by
        rw [List.length_map]
        exact (List.getElem?_eq_some_iff.mp hother).1
      apply (List.getElem?_inj hlt hnodup).mp
      rw [List.getElem?_map, List.getElem?_map, hother, hposition, Option.map_some, Option.map_some, hsame]
    obtain rfl := Option.some.inj (hother.symm.trans hposition)
    exact Option.isSome_iff_exists.mpr ⟨loaded, hsome⟩
  · intro hsome
    obtain ⟨loaded, hloaded⟩ := Option.isSome_iff_exists.mp hsome
    have hmem : (candidate, position) ∈ (candidates read report.index).zipIdx :=
      List.mem_zipIdx_iff_getElem?.mpr hposition
    refine ⟨loaded, List.mem_filterMap.mpr ⟨_, List.mem_map.mpr ⟨_, hmem, rfl⟩, hloaded⟩, ?_⟩
    rw [loaded_path hloaded, judge_path]

theorem judged_paths (index : ModuleIndex) (manifests : List (Option PackageManifest)) (found : List Candidate) :
    ((found.zipIdx.map fun (candidate, position) => judge index env manifests candidate position).map Verdict.path) =
      found.map (·.path) := by
  rw [List.map_map]
  have hfst := congrArg (List.map (·.path)) (List.zipIdx_map_fst 0 found)
  rw [List.map_map] at hfst
  exact Eq.trans (List.map_congr_left fun entry _ => judge_path _ entry.1 entry.2) hfst

omit [LinearOrder Version] in
theorem candidates_readErrors (read : UnixPath → Except IoError ByteArray) (index : ModuleIndex) :
    ((readErrors read index).map (·.path) ++ (candidates read index).map (·.path)).Perm (index.listed.map (·.path)) := by
  unfold candidates readErrors
  induction index.listed with
  | nil => exact .refl _
  | cons discovered listed ih =>
    cases hread : read discovered.path with
    | error source =>
      rw [List.filterMap_cons_some (by simp only [hread]; rfl), List.filterMap_cons_none (by simp only [hread])]
      exact ih.cons _
    | ok data =>
      rw [List.filterMap_cons_none (by simp only [hread]), List.filterMap_cons_some (by simp only [hread]; rfl)]
      exact List.perm_middle.trans (ih.cons _)

theorem loadScanned_paths (index : ModuleIndex) (errors : List ScanError) : (loadScanned read index env errors).paths.Perm
    (index.listed.map (·.path) ++ errors.map (·.path)) := by
  refine (record_paths _ _).trans ?_
  rw [judged_paths]
  unfold ModuleLoadReport.paths
  rw [List.map_nil, List.map_nil, List.nil_append, List.nil_append, List.map_append, List.append_assoc]
  exact ((candidates_readErrors read index).append_left _).trans List.perm_append_comm

def verdicts (read : UnixPath → Except IoError ByteArray) (index : ModuleIndex) (env : Validating) : List Verdict :=
  (candidates read index).zipIdx.map fun entry => judge index env
    ((candidates read index).map fun candidate => openManifest env.checking.codec candidate.data) entry.1 entry.2

theorem mem_verdicts {index : ModuleIndex} {verdict : Verdict} : verdict ∈ verdicts read index env ↔
    ∃ candidate position, (candidates read index)[position]? = some candidate ∧ judge index env
      ((candidates read index).map fun candidate => openManifest env.checking.codec candidate.data) candidate position =
        verdict := by
  unfold verdicts
  rw [List.mem_map]
  constructor
  · rintro ⟨⟨candidate, position⟩, hmem, rfl⟩
    exact ⟨candidate, position, List.mem_zipIdx_iff_getElem?.mp hmem, rfl⟩
  · rintro ⟨candidate, position, hat, rfl⟩
    exact ⟨(candidate, position), List.mem_zipIdx_iff_getElem?.mpr hat, rfl⟩

theorem loadScanned_eq (index : ModuleIndex) (errors : List ScanError) : loadScanned read index env errors =
    ⟨(verdicts read index env).filterMap Verdict.loaded, (verdicts read index env).filterMap Verdict.rejected,
      errors ++ readErrors read index ++ (verdicts read index env).filterMap Verdict.failed⟩ := by
  unfold loadScanned
  rw [foldl_record]
  rfl

theorem loadScanned_once (hscan : Scanned env.checking.codec files report) {candidate : Candidate}
    (hc : candidate ∈ candidates read report.index) :
    (loadScanned read report.index env report.errors).paths.count candidate.path = 1 := by
  have hnodup := hscan.paths_nodup
  have hsub := candidates_paths read report.index.listed
  obtain ⟨discovered, hd, hread⟩ := List.mem_filterMap.mp hc
  have hpath : candidate.path = discovered.path := by
    cases hr : read discovered.path with
    | error e => simp [hr] at hread
    | ok data =>
      rw [hr] at hread
      rw [← Option.some.inj hread]
  have hscanErrors : candidate.path ∉ report.errors.map (·.path) := hpath ▸ hscan.not_failed hd
  have hreadErrors : candidate.path ∉ (readErrors read report.index).map (·.path) := by
    intro hmem
    obtain ⟨e, he, hsame⟩ := List.mem_map.mp hmem
    obtain ⟨other, ho, herror⟩ := List.mem_filterMap.mp he
    cases hr : read other.path with
    | ok data => simp [hr] at herror
    | error source =>
      rw [hr] at herror
      rw [← Option.some.inj herror, hpath] at hsame
      have hother : read discovered.path = .error source := hsame ▸ hr
      simp [hother] at hread
  rw [loadScanned, (record_paths _ _).count_eq, judged_paths]
  have hinit : (ModuleLoadReport.mk [] [] (report.errors ++ readErrors read report.index)).paths =
      report.errors.map (·.path) ++ (readErrors read report.index).map (·.path) := by
    simp [ModuleLoadReport.paths]
  rw [hinit, List.count_append, List.count_append, List.count_eq_zero.mpr hscanErrors,
    List.count_eq_zero.mpr hreadErrors, Nat.zero_add]
  exact List.count_eq_one_of_mem (hnodup.sublist hsub) (List.mem_map_of_mem hc)

/-- Loading judges each package on its own account exactly when no package that is in order shares
its name with one that is not: conflicts are narrowed down to a package by its name alone. -/
theorem loads_on_own_account_iff {directories : List UnixPath}
    {index : ModuleIndex} (hindex : index.packages.entries.Perm
      (scanDirectories env.checking.codec files directories).index.packages.entries) :
    OnOwnAccount env index (candidates read index)
        (loadScanned read index env (scanDirectories env.checking.codec files directories).errors) ↔
      NamesakesBlameless env index (candidates read index) := by
  have hscan := (scanDirectories_scanned env.checking.codec files directories).reordered hindex
  have hmanifests : ((candidates read index).map fun candidate =>
      openManifest env.checking.codec candidate.data).filterMap id =
        manifestsOf env.checking.codec (candidates read index) := by
    rw [List.filterMap_map]
    rfl
  -- a candidate is valid if its platform is supported and all manifests of its name are blameless
  have hvalid : ∀ candidate ∈ candidates read index, ∀ manifest, Opens env.checking.codec candidate.data manifest →
      ((∃ loaded ∈ (loadScanned read index env (scanDirectories env.checking.codec files directories).errors).valid,
          loaded.path = candidate.path) ↔
        platformSupported env manifest = true ∧ ∀ other ∈ manifestsOf env.checking.codec (candidates read index),
          other.package.name = manifest.package.name →
            Blameless env index (manifestsOf env.checking.codec (candidates read index)) other) := by
    intro candidate hc manifest hopen
    obtain ⟨position, hposition⟩ := List.mem_iff_getElem?.mp hc
    have hown : ((candidates read index).map fun candidate =>
        openManifest env.checking.codec candidate.data)[position]? = some (some manifest) := by
      rw [List.getElem?_map, hposition, Option.map_some, openManifest_of_opens hopen]
    rw [loadScanned_valid hscan hposition, judge_loaded hopen hown, hmanifests]
  have hmem : ∀ candidate ∈ candidates read index, ∀ manifest, Opens env.checking.codec candidate.data manifest →
      manifest ∈ manifestsOf env.checking.codec (candidates read index) := fun candidate hc manifest hopen =>
    List.mem_filterMap.mpr ⟨candidate, hc, openManifest_of_opens hopen⟩
  constructor
  · intro h candidate hc manifest hopen hplatform hblameless
    exact ((hvalid candidate hc manifest hopen).mp
      ((h.valid candidate hc manifest hopen).mpr ⟨hplatform, hblameless⟩)).2
  · intro h
    refine ⟨fun candidate hc => loadScanned_once hscan hc, fun candidate hc manifest hopen => ?_⟩
    rw [hvalid candidate hc manifest hopen]
    constructor
    · rintro ⟨hplatform, hall⟩
      exact ⟨hplatform, hall manifest (hmem candidate hc manifest hopen) rfl⟩
    · rintro ⟨hplatform, hblameless⟩
      exact ⟨hplatform, h candidate hc manifest hopen hplatform hblameless⟩

end Judge

/-- An archive is its manifest's text, which tells apart two versions of one package; the second is
built against another Module API. -/
def namesakeCodec : Codec where
  decodeAll := .ok
  tarEntries data := .ok [.ok ⟨.ok "manifest.toml", .ok data⟩]
  toml text := .ok (if text = "1" then stubManifest "relay" []
    else { stubManifest "relay" [] with package := ⟨"relay", .new 2 0 0, ⟨2, 0⟩⟩ })

def namesakeFiles : ModuleFiles where
  readDir _ := some [.new "relay-1.nyp", .new "relay-2.nyp"]
  read path := .ok (if path = .new "relay-1.nyp" then ⟨#[49]⟩ else ⟨#[50]⟩)

def namesakeEnv : Validating where
  checking := { stubChecking [] with codec := namesakeCodec }
  reqMatches _ _ := true
  current := .linux
  trustStore := .new
  requiredApiVersion := ⟨1, 0⟩

def namesakeScan : ScanReport := scanDirectories namesakeCodec namesakeFiles [.new "modules"]

def namesakeReport : ModuleLoadReport :=
  letI := Version.numericOrder
  loadModules namesakeFiles.read namesakeEnv namesakeFiles [.new "modules"]

theorem loads_on_own_account_iff_namesakes :
    OnOwnAccount namesakeEnv namesakeScan.index (candidates namesakeFiles.read namesakeScan.index) namesakeReport ↔
      NamesakesBlameless namesakeEnv namesakeScan.index (candidates namesakeFiles.read namesakeScan.index) :=
  letI := Version.numericOrder
  loads_on_own_account_iff (List.Perm.refl _)

theorem namesakes_not_on_own_account :
    ¬ OnOwnAccount namesakeEnv namesakeScan.index (candidates namesakeFiles.read namesakeScan.index) namesakeReport := by
  intro h
  have hc : (⟨.new "relay-1.nyp", ⟨#[49]⟩⟩ : Candidate) ∈ candidates namesakeFiles.read namesakeScan.index := by
    have hlist : candidates namesakeFiles.read namesakeScan.index =
        [⟨.new "relay-1.nyp", ⟨#[49]⟩⟩, ⟨.new "relay-2.nyp", ⟨#[50]⟩⟩] := by rfl
    rw [hlist]
    exact List.mem_cons_self
  have hopen : Opens namesakeEnv.checking.codec ⟨#[49]⟩ (stubManifest "relay" []) :=
    ⟨⟨⟨#[49]⟩, stubManifest "relay" []⟩, [("manifest.toml", ⟨#[49]⟩)], rfl, rfl, rfl⟩
  have hblameless : Blameless namesakeEnv namesakeScan.index
      (manifestsOf namesakeEnv.checking.codec (candidates namesakeFiles.read namesakeScan.index))
      (stubManifest "relay" []) := ⟨rfl, fun name hname => absurd hname (AList.notMem_empty name)⟩
  obtain ⟨loaded, hloaded, -⟩ := (h.valid _ hc _ hopen).mpr ⟨rfl, hblameless⟩
  have hnone : namesakeReport.valid = [] := by rfl
  rw [hnone] at hloaded
  exact absurd hloaded List.not_mem_nil

end Nyarix
