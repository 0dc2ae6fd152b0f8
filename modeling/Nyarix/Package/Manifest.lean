import Nyarix.Lib.Collection
import Nyarix.Lib.Disk
import Nyarix.Lib.Semver

/-! Package errors, the package manifest and its validation. -/

namespace Nyarix

inductive PackageError where
  | io (path : String) (source : IoError)
  | invalidManifest (reason : String)
  | signatureFailure (package : String)
  | unsupportedVersion (version : String)
  | notFound (name : String)
  | missingMember (path : String)
  deriving DecidableEq, Repr

/-- The characters that `trim` takes off: Unicode's `White_Space`. -/
def isWhiteSpace (c : Char) : Bool :=
  let n := c.toNat
  (9 ≤ n && n ≤ 13) || n = 0x20 || n = 0x85 || n = 0xA0 || n = 0x1680 || (0x2000 ≤ n && n ≤ 0x200A) ||
    n = 0x2028 || n = 0x2029 || n = 0x202F || n = 0x205F || n = 0x3000

def trim (s : String) : List Char := (s.toList.dropWhile isWhiteSpace).reverse.dropWhile isWhiteSpace |>.reverse

structure ApiVersion where
  major : UInt16
  minor : UInt16
  deriving DecidableEq, Repr

def isCompatible (required provided : ApiVersion) : Bool :=
  required.major = provided.major ∧ required.minor ≤ provided.minor

inductive Platform where
  | linux | windows | macOs | android | ios | unknown
  deriving DecidableEq, Repr

structure PackageInfo where
  name : String
  version : Semver.Version
  apiVersion : ApiVersion
  deriving DecidableEq

structure DependencySpec where
  versionReq : Semver.VersionReq
  optional : Bool
  deriving DecidableEq

structure Platforms where
  supported : List Platform
  deriving DecidableEq

structure PackageManifest where
  package : PackageInfo
  dependencies : HashMap String DependencySpec
  platforms : Platforms
  deriving DecidableEq

namespace PackageManifest

def validate (m : PackageManifest) : Except PackageError Unit :=
  if trim m.package.name = [] then .error (.invalidManifest "package.name must not be empty") else .ok ()

def fromToml (parse : String → Except String PackageManifest) (input : String) : Except PackageError PackageManifest := do
  let manifest ← (parse input).mapError .invalidManifest
  manifest.validate
  return manifest

end PackageManifest

/-- The manifest of that name, version 1.0.0, built against Module API 1.0, that depends on any
version of those packages. -/
def stubManifest (name : String) (dependencies : List String) : PackageManifest where
  package := ⟨name, .new 1 0 0, ⟨1, 0⟩⟩
  dependencies := dependencies.foldl (fun deps dep => deps.insert dep ⟨⟨"*"⟩, false⟩) ∅
  platforms := ⟨[]⟩

end Nyarix
