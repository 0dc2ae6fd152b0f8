import Nyarix.Loader.Conflict
import Nyarix.Package.Trust

/-! Validating one candidate package against the others: unpacking, signature, trust level,
conflicts and platform. -/

namespace Nyarix
open Semver (Version VersionReq)

structure ValidationReport where
  signatureStatus : SignatureStatus
  trustLevel : TrustLevel
  conflicts : List Conflict
  platformSupported : Bool

def ValidationReport.isValid (r : ValidationReport) : Bool := r.conflicts.isEmpty && r.platformSupported

/-- What validating rests on besides the package: the checks of packages, the matching of versions,
the platform this runtime is built for, the trust store and the Module API version it requires. -/
structure Validating where
  checking : Checking
  reqMatches : VersionReq → Version → Bool
  current : Platform
  trustStore : TrustStore
  requiredApiVersion : ApiVersion

def platformSupported (env : Validating) (manifest : PackageManifest) : Bool :=
  manifest.platforms.supported.isEmpty || env.current ∈ manifest.platforms.supported

variable [LinearOrder Version]

def validatePackage (env : Validating) (data : ByteArray) (otherManifests : List PackageManifest)
    (index : ModuleIndex) : Except PackageError ValidationReport := do
  let reader ← PackageReader.openArchive env.checking.codec data
  let signatureStatus ← reader.signatureStatus env.checking
  let trustLevel ← classify env.checking reader env.trustStore
  let conflicts := detectConflicts env.reqMatches (otherManifests ++ [reader.manifest]) index env.requiredApiVersion
  return ⟨signatureStatus, trustLevel, conflicts, platformSupported env reader.manifest⟩

def Opens (codec : Codec) (data : ByteArray) (manifest : PackageManifest) : Prop :=
  ∃ reader entries, PackageReader.openArchive codec data = .ok reader ∧ reader.entries codec = .ok entries ∧
    reader.manifest = manifest

omit [LinearOrder Version] in
theorem signatureStatus_of_entries {env : Checking} {reader : PackageReader} {entries : List Entry}
    (h : reader.entries env.codec = .ok entries) : ∃ status, reader.signatureStatus env = .ok status := by
  unfold PackageReader.signatureStatus
  rw [h]
  simp only [bind, Except.bind]
  split
  · split
    · exact ⟨_, rfl⟩
    · split
      · exact ⟨_, rfl⟩
      · split <;> exact ⟨_, rfl⟩
  · exact ⟨_, rfl⟩

omit [LinearOrder Version] in
theorem classify_of_entries {env : Checking} {reader : PackageReader} {entries : List Entry}
    (h : reader.entries env.codec = .ok entries) (store : TrustStore) :
    ∃ level, classify env reader store = .ok level := by
  obtain ⟨status, hstatus⟩ := signatureStatus_of_entries h
  have hread := readEntry_of_entries h publicKeyMemberPath
  unfold classify
  rw [hstatus, hread]
  simp only [bind, Except.bind]
  split
  · exact ⟨_, rfl⟩
  · split
    · exact ⟨_, rfl⟩
    · split
      · exact ⟨_, rfl⟩
      · split <;> exact ⟨_, rfl⟩

theorem validatePackage_of_opens {env : Validating} {data : ByteArray} {manifest : PackageManifest}
    (h : Opens env.checking.codec data manifest) (otherManifests : List PackageManifest) (index : ModuleIndex) :
    ∃ status level, validatePackage env data otherManifests index = .ok ⟨status, level,
      detectConflicts env.reqMatches (otherManifests ++ [manifest]) index env.requiredApiVersion,
      platformSupported env manifest⟩ := by
  obtain ⟨reader, entries, hopen, hentries, rfl⟩ := h
  obtain ⟨status, hstatus⟩ := signatureStatus_of_entries hentries
  obtain ⟨level, hlevel⟩ := classify_of_entries hentries env.trustStore
  refine ⟨status, level, ?_⟩
  rw [validatePackage, hopen]
  exact bind_ok.mpr ⟨reader, rfl, bind_ok.mpr ⟨status, hstatus, bind_ok.mpr ⟨level, hlevel, rfl⟩⟩⟩

end Nyarix
