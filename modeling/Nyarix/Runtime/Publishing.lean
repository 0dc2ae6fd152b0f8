import Nyarix.Package.Builder
import Nyarix.Runtime.ModuleLoader

/-! From the publishers to the runtime: what comes of a set of packages that were signed, built and put into
the scanned directories. -/

namespace Nyarix
open Semver (Version)

section Release
variable {checking : Checking} {signer : Signer checking.scheme}

structure Release (signer : Signer checking.scheme) where
  files : List Entry
  manifest : PackageManifest
  key : signer.SigningKey

def Release.publish (release : Release signer) (encoder : Encoder) : Except PackageError ByteArray :=
  ((release.files.foldl (fun b e => b.addFile e.1 e.2) PackageBuilder.new).sign checking signer release.key).build encoder

/-- The trust of those who know the key of a release as the store does. -/
def Release.trustIn (release : Release signer) (store : TrustStore) : TrustLevel :=
  (store.levelFor checking (signer.verifyingKey release.key)).getD .unknown

/-- The bytes are what was built of a release, and the formats lose nothing of it. -/
structure Published (encoder : Encoder) (release : Release signer) (data : ByteArray) : Prop where
  files : PackageFiles checking.codec release.files release.manifest
  /-- A signature verifies for the message it was made of, and the key can be read back from its bytes. -/
  verifies : checking.scheme.verify (signer.verifyingKey release.key) (signableBytes checking.sort release.files)
    (signer.sign release.key (signableBytes checking.sort release.files)) = true
  key : checking.scheme.fromBytes (checking.scheme.toBytes (signer.verifyingKey release.key)) =
    some (signer.verifyingKey release.key)
  round : RoundTrips encoder checking.codec
    (release.files ++ signatureMembers signer release.key release.files)
  built : release.publish encoder = .ok data

variable {encoder : Encoder} {release : Release signer} {data : ByteArray}

theorem publish_eq (release : Release signer) (encoder : Encoder) : release.publish encoder =
    (PackageBuilder.mk (release.files ++ signatureMembers signer release.key release.files)).build encoder := by
  unfold Release.publish PackageBuilder.build
  rw [sign_entries, foldl_addFile]
  rfl

theorem Published.opens (h : Published encoder release data) : ∃ reader,
    PackageReader.openArchive checking.codec data = .ok reader ∧ reader.manifest = release.manifest ∧
      reader.entries checking.codec = .ok (release.files ++ signatureMembers signer release.key release.files) ∧
      reader.signatureStatus checking = .ok .verified ∧
      ∀ store, classify checking reader store = .ok (release.trustIn store) := by
  obtain ⟨tarBytes, bytes, htar, hzstd, harchive⟩ := h.round
  obtain ⟨contents, text, hmem, hutf8, hmanifest⟩ := h.files.manifest
  have hbuilt : release.publish encoder = .ok bytes := by
    rw [publish_eq]
    refine bind_ok.mpr ⟨tarBytes, ?_, ?_⟩
    · exact congrArg (Except.mapError archiveError) htar
    · exact congrArg (Except.mapError archiveError) hzstd
  obtain rfl : bytes = data := Except.ok.inj (hbuilt.symm.trans h.built)
  have hdistinct : ((release.files ++ signatureMembers signer release.key release.files).map (·.1)).Nodup :=
    distinct_members h.files.distinct h.files.outside release.files
  have hentries := harchive.entries release.manifest
  have hverified : (PackageReader.mk tarBytes release.manifest).signatureStatus checking = .ok .verified := by
    rw [signatureStatus_members h.key hentries hdistinct (List.subset_append_right _ _), verify, signableBytes_signed,
      if_pos h.verifies]
  refine ⟨⟨tarBytes, release.manifest⟩, ?_, rfl, hentries, hverified, ?_⟩
  · apply harchive.openArchive ?_ ?_ hmanifest
    · intro e he hpath
      rw [List.inj_on_of_nodup_map hdistinct he (List.mem_append_left _ hmem) hpath]
      exact hutf8
    · exact List.mem_map_of_mem (List.mem_append_left _ hmem)
  · apply classify_verified hentries hverified hdistinct ?_ h.key
    exact List.mem_append_right _ (List.mem_cons_of_mem _ List.mem_cons_self)

theorem Published.opensManifest (h : Published encoder release data) : Opens checking.codec data release.manifest := by
  obtain ⟨reader, hopen, hmanifest, hentries, -⟩ := h.opens
  exact ⟨reader, _, hopen, hentries, hmanifest⟩

def AllPublished (encoder : Encoder) (files : ModuleFiles) (directories : List UnixPath)
    (releases : UnixPath → Release signer) : Prop :=
  ∀ path ∈ files.packages directories, ∃ data, files.read path = .ok data ∧ Published encoder (releases path) data

end Release

/-- A set of packages that a runtime can load as it is: every dependency that somebody cannot do without is
provided in a version that all who declare it accept. -/
structure SelfContained (env : Validating) (manifests : List PackageManifest) : Prop where
  platform : ∀ m ∈ manifests, platformSupported env m = true
  api : ∀ m ∈ manifests, isCompatible env.requiredApiVersion m.package.apiVersion = true
  provided : ∀ name, IsDependency manifests name → ¬ AllOptional manifests name →
    ∃ provider ∈ manifests, provider.package.name = name ∧ ∀ m ∈ manifests, ∀ dep,
      m.dependencies.lookup name = some dep → env.reqMatches dep.versionReq provider.package.version = true

theorem SelfContained.without {env : Validating} {manifests kept : List PackageManifest}
    (h : SelfContained env manifests) (hsub : kept ⊆ manifests)
    (hkept : ∀ m ∈ manifests, ∃ m' ∈ kept, m'.package.name = m.package.name ∧ m'.package.version = m.package.version) :
    SelfContained env kept := by
  refine ⟨fun m hm => h.platform m (hsub hm), fun m hm => h.api m (hsub hm), ?_⟩
  rintro name ⟨m, hm, hdep⟩ hneeded
  have hneeded : ¬ AllOptional manifests name := fun hall => hneeded fun m hm => hall m (hsub hm)
  obtain ⟨provider, hprovider, rfl, hmatches⟩ := h.provided name ⟨m, hsub hm, hdep⟩ hneeded
  obtain ⟨same, hsame, hname, hversion⟩ := hkept provider hprovider
  refine ⟨same, hsame, hname, fun m hm dep hlookup => ?_⟩
  rw [hversion]
  exact hmatches m (hsub hm) dep hlookup

section Blame
variable [LinearOrder Version] {env : Validating} {index : ModuleIndex} {manifests : List PackageManifest}

omit [LinearOrder Version] in
theorem blameless_iff_selfContained (hindex : ∀ name version, index.Has name version ↔
      ∃ m ∈ manifests, m.package.name = name ∧ m.package.version = version) :
    (∀ m ∈ manifests, platformSupported env m = true ∧ Blameless env index manifests m) ↔
      SelfContained env manifests := by
  constructor
  · intro h
    refine ⟨fun m hm => (h m hm).1, fun m hm => (h m hm).2.api, ?_⟩
    rintro name ⟨m, hm, hdep⟩ hneeded
    have hsuitable : (Suitable env.reqMatches index manifests name).Nonempty := by
      by_contra hnone
      exact (h m hm).2.dependencies name hdep ⟨⟨m, hm, hdep⟩, hnone, hneeded⟩
    obtain ⟨version, hhas, hmatches⟩ := hsuitable
    obtain ⟨provider, hprovider, hname, rfl⟩ := (hindex name version).mp hhas
    exact ⟨provider, hprovider, hname, hmatches⟩
  · intro h m hm
    refine ⟨h.platform m hm, h.api m hm, ?_⟩
    rintro name - ⟨hdep, hnone, hneeded⟩
    obtain ⟨provider, hprovider, hname, hmatches⟩ := h.provided name hdep hneeded
    exact hnone ⟨provider.package.version, (hindex _ _).mpr ⟨provider, hprovider, hname, rfl⟩, hmatches⟩

end Blame

section Load
variable [LinearOrder Version] {env : Validating} {encoder : Encoder} {signer : Signer env.checking.scheme}
  {files : ModuleFiles} {directories : List UnixPath} {releases : UnixPath → Release signer} {index : ModuleIndex}

theorem Published.validated {release : Release signer} {data : ByteArray} (h : Published encoder release data)
    (others : List PackageManifest) (index : ModuleIndex) :
    validatePackage env data others index = .ok ⟨.verified, release.trustIn env.trustStore,
      detectConflicts env.reqMatches (others ++ [release.manifest]) index env.requiredApiVersion,
      platformSupported env release.manifest⟩ := by
  obtain ⟨reader, hopen, hmanifest, -, hverified, htrust⟩ := h.opens
  unfold validatePackage
  rw [← hmanifest]
  exact bind_ok.mpr ⟨reader, hopen, bind_ok.mpr ⟨_, hverified, bind_ok.mpr ⟨_, htrust _, rfl⟩⟩⟩

theorem Published.judged {release : Release signer} {candidate : Candidate} {position : Nat}
    {manifests : List (Option PackageManifest)} (h : Published encoder release candidate.data) (index : ModuleIndex)
    (hposition : manifests[position]? = some (some release.manifest)) :
    judge index env manifests candidate position =
        .valid ⟨candidate.path, candidate.data, ⟨.verified, release.trustIn env.trustStore, [], true⟩⟩ ∨
      ∃ conflicts supported, judge index env manifests candidate position =
        .invalid ⟨candidate.path, ⟨.verified, release.trustIn env.trustStore, conflicts, supported⟩⟩ := by
  rw [Nyarix.judge, hposition, h.validated]
  dsimp only [Option.join_some, Option.map_some]
  split_ifs with hvalid
  · left
    rw [ValidationReport.isValid, Bool.and_eq_true, List.isEmpty_iff] at hvalid
    obtain ⟨hnone, hsupported⟩ := hvalid
    dsimp only at hnone hsupported
    rw [hnone, hsupported]
  · exact .inr ⟨_, _, rfl⟩

variable (hpublished : AllPublished encoder files directories releases)
include hpublished

omit [LinearOrder Version] in
theorem AllPublished.discovered {path : UnixPath} (hpath : path ∈ files.packages directories) :
    discoverOne env.checking.codec files path = .ok ⟨path, (releases path).manifest.package.name,
      (releases path).manifest.package.version⟩ := by
  obtain ⟨data, hread, hdata⟩ := hpublished path hpath
  obtain ⟨reader, hopen, hmanifest, -⟩ := hdata.opens
  unfold discoverOne
  rw [hread, ← hmanifest]
  exact bind_ok.mpr ⟨data, rfl, bind_ok.mpr ⟨reader, hopen, rfl⟩⟩

omit [LinearOrder Version] in
theorem AllPublished.errors : (scanDirectories env.checking.codec files directories).errors = [] := by
  apply List.eq_nil_iff_forall_not_mem.mpr
  intro e he
  have haccounted := scanDirectories_accounted env.checking.codec files directories
  have hpath : e.path ∈ files.packages directories := by
    apply haccounted.paths.subset
    exact List.mem_append_left _ (List.mem_append_right _ (List.mem_map_of_mem he))
  have hfailed := (scanDirectories_scanned env.checking.codec files directories).failed e he
  rw [hpublished.discovered hpath] at hfailed
  cases hfailed

variable (hindex : index.packages.entries.Perm
  (scanDirectories env.checking.codec files directories).index.packages.entries)
include hindex

omit [LinearOrder Version] in
theorem AllPublished.listed {package : DiscoveredPackage} (hp : package ∈ index.listed) :
    package.path ∈ files.packages directories ∧ package.name = (releases package.path).manifest.package.name ∧
      package.version = (releases package.path).manifest.package.version := by
  have hscanned := scanDirectories_scanned env.checking.codec files directories
  have haccounted := scanDirectories_accounted env.checking.codec files directories
  have hpath : package.path ∈ files.packages directories := by
    apply haccounted.paths.subset
    have hmem := (hscanned.listed_reordered hindex).subset hp
    exact List.mem_append_left _ (List.mem_append_left _ (List.mem_map_of_mem hmem))
  have hfound := (hscanned.reordered hindex).found_listed hp
  rw [hpublished.discovered hpath] at hfound
  have hfound := DiscoveredPackage.mk.inj (Except.ok.inj hfound)
  exact ⟨hpath, hfound.2.1.symm, hfound.2.2.symm⟩

omit [LinearOrder Version] in
theorem AllPublished.readErrors : readErrors files.read index = [] := by
  apply List.filterMap_eq_nil_iff.mpr
  intro package hp
  obtain ⟨data, hread, -⟩ := hpublished _ (hpublished.listed hindex hp).1
  rw [hread]

omit [LinearOrder Version] in
theorem AllPublished.candidate {candidate : Candidate} (hc : candidate ∈ candidates files.read index) :
    files.read candidate.path = .ok candidate.data ∧ Published encoder (releases candidate.path) candidate.data := by
  obtain ⟨package, hp, hsome⟩ := List.mem_filterMap.mp hc
  obtain ⟨data, hread, hdata⟩ := hpublished _ (hpublished.listed hindex hp).1
  rw [hread] at hsome
  rw [← Option.some.inj hsome]
  exact ⟨hread, hdata⟩

omit [LinearOrder Version] in
theorem AllPublished.manifests : manifestsOf env.checking.codec (candidates files.read index) =
    index.listed.map fun package => (releases package.path).manifest := by
  unfold manifestsOf candidates
  rw [List.filterMap_filterMap, ← List.filterMap_eq_map]
  refine List.filterMap_congr fun package hp => ?_
  obtain ⟨data, hread, hdata⟩ := hpublished _ (hpublished.listed hindex hp).1
  rw [hread, Option.bind_some, openManifest_of_opens hdata.opensManifest]
  rfl

structure Judged (env : Validating) {signer : Signer env.checking.scheme} (index : ModuleIndex)
    (manifests : List PackageManifest) (candidate : Candidate) (release : Release signer) (verdict : Verdict) : Prop where
  outcome : verdict = .valid ⟨candidate.path, candidate.data, ⟨.verified, release.trustIn env.trustStore, [], true⟩⟩ ∨
    ∃ conflicts supported, verdict =
      .invalid ⟨candidate.path, ⟨.verified, release.trustIn env.trustStore, conflicts, supported⟩⟩
  accepted : verdict.rejected = none ↔ platformSupported env release.manifest = true ∧
    ∀ other ∈ manifests, other.package.name = release.manifest.package.name → Blameless env index manifests other

theorem AllPublished.judged {candidate : Candidate} {position : Nat}
    (hat : (candidates files.read index)[position]? = some candidate) :
    Judged env index (manifestsOf env.checking.codec (candidates files.read index)) candidate (releases candidate.path)
      (judge index env ((candidates files.read index).map fun candidate =>
        openManifest env.checking.codec candidate.data) candidate position) := by
  have hdata := (hpublished.candidate hindex (List.mem_of_getElem? hat)).2
  have hown : ((candidates files.read index).map fun candidate =>
      openManifest env.checking.codec candidate.data)[position]? = some (some (releases candidate.path).manifest) := by
    rw [List.getElem?_map, hat, Option.map_some, openManifest_of_opens hdata.opensManifest]
  have hmanifests : ((candidates files.read index).map fun candidate =>
      openManifest env.checking.codec candidate.data).filterMap id =
        manifestsOf env.checking.codec (candidates files.read index) := by
    rw [List.filterMap_map]
    rfl
  have houtcome := hdata.judged index hown
  refine ⟨houtcome, ?_⟩
  rw [← hmanifests, ← judge_loaded hdata.opensManifest hown]
  rcases houtcome with hvalid | ⟨conflicts, supported, hinvalid⟩
  · rw [hvalid]
    exact iff_of_true rfl rfl
  · rw [hinvalid]
    exact iff_of_false (Option.some_ne_none _) Bool.false_ne_true

theorem AllPublished.rejected : (verdicts files.read index env).filterMap Verdict.rejected = [] ↔
    SelfContained env (index.listed.map fun package => (releases package.path).manifest) := by
  -- the index has what the releases found in the directories say they are
  have hhas : ∀ name version, index.Has name version ↔
      ∃ m ∈ index.listed.map fun package => (releases package.path).manifest,
        m.package.name = name ∧ m.package.version = version := by
    intro name version
    have hsound := ((scanDirectories_scanned env.checking.codec files directories).reordered hindex).sound
    simp only [List.mem_map, exists_exists_and_eq_and]
    constructor
    · rintro ⟨package, hp, rfl⟩
      have hlisted := mem_listed.mpr ⟨name, hp⟩
      obtain ⟨-, hname, hversion⟩ := hpublished.listed hindex hlisted
      exact ⟨package, hlisted, hname.symm.trans (hsound.named name package hp), hversion.symm⟩
    · rintro ⟨package, hp, rfl, rfl⟩
      obtain ⟨-, hname, hversion⟩ := hpublished.listed hindex hp
      obtain ⟨name, hget⟩ := mem_listed.mp hp
      rw [← hname, hsound.named name package hget]
      exact ⟨package, hget, hversion⟩
  rw [← blameless_iff_selfContained hhas, ← hpublished.manifests hindex, List.filterMap_eq_nil_iff]
  constructor
  · intro hnone m hm
    obtain ⟨candidate, hc, hopen⟩ := List.mem_filterMap.mp hm
    obtain ⟨position, hat⟩ := List.mem_iff_getElem?.mp hc
    obtain rfl : (releases candidate.path).manifest = m := by
      rw [openManifest_of_opens (hpublished.candidate hindex hc).2.opensManifest] at hopen
      exact Option.some.inj hopen
    have haccepted := (hpublished.judged hindex hat).accepted.mp
      (hnone _ (mem_verdicts.mpr ⟨candidate, position, hat, rfl⟩))
    exact ⟨haccepted.1, haccepted.2 _ hm rfl⟩
  · intro hall verdict hv
    obtain ⟨candidate, position, hat, rfl⟩ := mem_verdicts.mp hv
    have hc := List.mem_of_getElem? hat
    have hm : (releases candidate.path).manifest ∈ manifestsOf env.checking.codec (candidates files.read index) :=
      List.mem_filterMap.mpr ⟨candidate, hc, openManifest_of_opens (hpublished.candidate hindex hc).2.opensManifest⟩
    exact (hpublished.judged hindex hat).accepted.mpr ⟨(hall _ hm).1, fun other hother _ => (hall other hother).2⟩

theorem AllPublished.verdict {verdict : Verdict} (hv : verdict ∈ verdicts files.read index env) :
    ∃ candidate ∈ candidates files.read index, Judged env index
      (manifestsOf env.checking.codec (candidates files.read index)) candidate (releases candidate.path) verdict := by
  obtain ⟨candidate, position, hat, rfl⟩ := mem_verdicts.mp hv
  exact ⟨candidate, List.mem_of_getElem? hat, hpublished.judged hindex hat⟩

theorem AllPublished.failed : (verdicts files.read index env).filterMap Verdict.failed = [] := by
  apply List.filterMap_eq_nil_iff.mpr
  intro verdict hv
  obtain ⟨candidate, -, hjudged⟩ := hpublished.verdict hindex hv
  rcases hjudged.outcome with rfl | ⟨conflicts, supported, rfl⟩
  · rfl
  · rfl

theorem AllPublished.loaded {package : LoadedPackage}
    (h : package ∈ (verdicts files.read index env).filterMap Verdict.loaded) :
    files.read package.path = .ok package.data ∧
      package.validation = ⟨.verified, (releases package.path).trustIn env.trustStore, [], true⟩ := by
  obtain ⟨verdict, hv, hloaded⟩ := List.mem_filterMap.mp h
  obtain ⟨candidate, hc, hjudged⟩ := hpublished.verdict hindex hv
  rcases hjudged.outcome with rfl | ⟨conflicts, supported, rfl⟩
  · obtain rfl := Option.some.inj hloaded
    exact ⟨(hpublished.candidate hindex hc).1, rfl⟩
  · cases hloaded

theorem AllPublished.refused {package : RejectedPackage}
    (h : package ∈ (verdicts files.read index env).filterMap Verdict.rejected) :
    package.validation.signatureStatus = .verified ∧
      package.validation.trustLevel = (releases package.path).trustIn env.trustStore := by
  obtain ⟨verdict, hv, hrejected⟩ := List.mem_filterMap.mp h
  obtain ⟨candidate, -, hjudged⟩ := hpublished.verdict hindex hv
  rcases hjudged.outcome with rfl | ⟨conflicts, supported, rfl⟩
  · cases hrejected
  · obtain rfl := Option.some.inj hrejected
    exact ⟨rfl, rfl⟩

omit [LinearOrder Version] in
theorem AllPublished.paths : (index.listed.map (·.path) ++
    (scanDirectories env.checking.codec files directories).duplicates.map (·.duplicatePath)).Perm
      (files.packages directories) := by
  have hlisted := (scanDirectories_scanned env.checking.codec files directories).listed_reordered hindex
  have hall := (scanDirectories_accounted env.checking.codec files directories).paths
  unfold ScanReport.paths at hall
  rw [hpublished.errors, List.map_nil, List.append_nil] at hall
  exact ((hlisted.map _).append_right _).trans hall

omit [LinearOrder Version] in
theorem AllPublished.covered {path : UnixPath} (hpath : path ∈ files.packages directories) :
    ∃ package ∈ index.listed,
      (releases package.path).manifest.package.name = (releases path).manifest.package.name ∧
        (releases package.path).manifest.package.version = (releases path).manifest.package.version := by
  have hscanned := scanDirectories_scanned env.checking.codec files directories
  have hlisted := hscanned.listed_reordered hindex
  rcases List.mem_append.mp ((hpublished.paths hindex).symm.subset hpath) with hkept | hdup
  · obtain ⟨package, hp, rfl⟩ := List.mem_map.mp hkept
    exact ⟨package, hp, rfl, rfl⟩
  · obtain ⟨duplicate, hd, rfl⟩ := List.mem_map.mp hdup
    have haccounted := scanDirectories_accounted env.checking.codec files directories
    have hfound := haccounted.found duplicate hd
    rw [hpublished.discovered hpath] at hfound
    have hfound := DiscoveredPackage.mk.inj (Except.ok.inj hfound)
    obtain ⟨kept, hkept, hversion, -⟩ := haccounted.kept duplicate hd
    have hmem := hlisted.symm.subset (mem_listed.mpr ⟨_, hkept⟩)
    obtain ⟨-, hname', hversion'⟩ := hpublished.listed hindex hmem
    refine ⟨kept, hmem, ?_, ?_⟩
    · rw [← hname', hfound.2.1]
      exact hscanned.sound.named _ kept hkept
    · rw [← hversion', hfound.2.2, hversion]

theorem AllPublished.reported_errors : (loadScanned files.read index env []).errors = [] := by
  rw [loadScanned_eq, hpublished.readErrors hindex, hpublished.failed hindex]
  rfl

theorem AllPublished.reported : ((loadScanned files.read index env []).valid.map (·.path) ++
    (loadScanned files.read index env []).invalid.map (·.path)).Perm (index.listed.map (·.path)) := by
  have hall : (loadScanned files.read index env []).paths.Perm _ := loadScanned_paths index []
  unfold ModuleLoadReport.paths at hall
  rw [hpublished.reported_errors hindex, List.map_nil, List.append_nil, List.append_nil] at hall
  exact hall

variable (env) in
/-- If every package file is that of a release, then none is in error, and each is loaded or rejected with its
signature verified and the trust that the store has in its key, unless it is a duplicate; all are loaded if the
set is self-contained, and without duplicates only then. -/
theorem releases_load :
    let scan := scanDirectories env.checking.codec files directories
    let report := loadScanned files.read index env scan.errors
    let deployed := (files.packages directories).map fun path => (releases path).manifest
    report.errors = [] ∧
    (report.valid.map (·.path) ++ report.invalid.map (·.path) ++ scan.duplicates.map (·.duplicatePath)).Perm
      (files.packages directories) ∧
    (∀ package ∈ report.valid, files.read package.path = .ok package.data ∧
      package.validation = ⟨.verified, (releases package.path).trustIn env.trustStore, [], true⟩) ∧
    (∀ package ∈ report.invalid, package.validation.signatureStatus = .verified ∧
      package.validation.trustLevel = (releases package.path).trustIn env.trustStore) ∧
    (SelfContained env deployed → report.invalid = [] ∧ ∀ path ∈ files.packages directories,
      ∃ package ∈ report.valid, (releases package.path).manifest.package.name = (releases path).manifest.package.name ∧
        (releases package.path).manifest.package.version = (releases path).manifest.package.version) ∧
    (scan.duplicates = [] → report.invalid = [] → SelfContained env deployed) := by
  intro scan report deployed
  -- Nothing was in error in the scan, so the report starts from no errors.
  have hreport : report = loadScanned files.read index env [] := by
    change loadScanned files.read index env scan.errors = _
    rw [show scan.errors = [] from hpublished.errors]
  have hlists : loadScanned files.read index env [] = _ := loadScanned_eq index []
  have hpaths : (_ ++ (loadScanned files.read index env []).invalid.map (·.path)).Perm _ := hpublished.reported hindex
  have hfiles := hpublished.paths hindex
  have hkept : report.invalid = [] ↔ SelfContained env (index.listed.map fun package => (releases package.path).manifest) := by
    rw [hreport, hlists]
    exact hpublished.rejected hindex
  have hmem : ∀ m, m ∈ deployed ↔ ∃ path ∈ files.packages directories, (releases path).manifest = m := fun m =>
    List.mem_map
  refine ⟨?_, ?_, fun package hp => ?_, fun package hp => ?_, fun hclosed => ?_, fun hnone hloaded => ?_⟩
  · rw [hreport]
    exact hpublished.reported_errors hindex
  · rw [hreport]
    exact (hpaths.append_right _).trans hfiles
  · rw [hreport, hlists] at hp
    exact hpublished.loaded hindex hp
  · rw [hreport, hlists] at hp
    exact hpublished.refused hindex hp
  · -- What is left out are duplicates, whose name and version stay in the index.
    have hinvalid : report.invalid = [] := by
      refine hkept.mpr (hclosed.without ?_ ?_)
      · intro m hm
        obtain ⟨package, hp, rfl⟩ := List.mem_map.mp hm
        exact (hmem _).mpr ⟨package.path, (hpublished.listed hindex hp).1, rfl⟩
      · intro m hm
        obtain ⟨path, hpath, rfl⟩ := (hmem m).mp hm
        obtain ⟨package, hp, hsame⟩ := hpublished.covered hindex hpath
        exact ⟨_, List.mem_map_of_mem hp, hsame⟩
    refine ⟨hinvalid, fun path hpath => ?_⟩
    obtain ⟨package, hp, hsame⟩ := hpublished.covered hindex hpath
    rw [hreport] at hinvalid ⊢
    rw [hinvalid, List.map_nil, List.append_nil] at hpaths
    obtain ⟨loaded, hloaded, heq⟩ := List.mem_map.mp (hpaths.symm.subset (List.mem_map_of_mem hp))
    refine ⟨loaded, hloaded, ?_⟩
    rw [heq]
    exact hsame
  · -- Without duplicates the index holds all that was deployed.
    rw [show (scanDirectories env.checking.codec files directories).duplicates = [] from hnone, List.map_nil,
      List.append_nil] at hfiles
    have hall : ∀ m ∈ deployed, m ∈ index.listed.map fun package => (releases package.path).manifest := by
      intro m hm
      obtain ⟨path, hpath, rfl⟩ := (hmem m).mp hm
      obtain ⟨package, hp, rfl⟩ := List.mem_map.mp (hfiles.symm.subset hpath)
      exact List.mem_map_of_mem hp
    refine (hkept.mp hloaded).without hall fun m hm => ?_
    obtain ⟨package, hp, rfl⟩ := List.mem_map.mp hm
    exact ⟨_, (hmem _).mpr ⟨package.path, (hpublished.listed hindex hp).1, rfl⟩, rfl, rfl⟩

end Load

def relayRuntime : Validating where
  checking := relayChecking
  reqMatches _ _ := true
  current := .linux
  trustStore := TrustStore.new.trust relayChecking stubKey .community
  requiredApiVersion := ⟨1, 0⟩

def relayRelease : Release relaySigner := ⟨relayFiles ⟨#[1]⟩, stubManifest "relay" [], stubKey⟩

def relayModules : ModuleFiles where
  readDir _ := some [.new "relay.nyp"]
  read _ := .ok ⟨#[1]⟩

theorem relay_published : Published relayEncoder relayRelease ⟨#[1]⟩ := by
  refine ⟨relay_packageFiles, (relay_verifiesExactly.verify _).mpr rfl, relay_verifiesExactly.key,
    ⟨⟨#[1]⟩, ⟨#[1]⟩, rfl, rfl, rfl, rfl⟩, rfl⟩

theorem releases_load_relay : let _ := Version.numericOrder
    let scan := scanDirectories relayRuntime.checking.codec relayModules [.new "modules"]
    let report := loadScanned relayModules.read scan.index relayRuntime scan.errors
    report.errors = [] ∧ report.invalid = [] ∧
      ∃ package ∈ report.valid, package.validation = ⟨.verified, .community, [], true⟩ := by
  intro _ scan report
  have hpublished : AllPublished relayEncoder relayModules [.new "modules"] fun _ => relayRelease :=
    fun path _ => ⟨⟨#[1]⟩, rfl, relay_published⟩
  have hindex :=
    List.Perm.refl (scanDirectories relayRuntime.checking.codec relayModules [.new "modules"]).index.packages.entries
  obtain ⟨herrors, -, hvalid, -, hload, -⟩ := releases_load relayRuntime hpublished hindex
  have hclosed : SelfContained relayRuntime
      ((relayModules.packages [.new "modules"]).map fun _ => relayRelease.manifest) := by
    refine ⟨fun m hm => ?_, fun m hm => ?_, ?_⟩
    · obtain ⟨path, -, rfl⟩ := List.mem_map.mp hm
      rfl
    · obtain ⟨path, -, rfl⟩ := List.mem_map.mp hm
      rfl
    · rintro name ⟨m, hm, hdep⟩
      obtain ⟨path, -, rfl⟩ := List.mem_map.mp hm
      exact absurd hdep (AList.notMem_empty name)
  obtain ⟨hinvalid, hall⟩ := hload hclosed
  obtain ⟨package, hp, -⟩ := hall (.new "relay.nyp") (by decide)
  exact ⟨herrors, hinvalid, package, hp, (hvalid package hp).2⟩

end Nyarix
