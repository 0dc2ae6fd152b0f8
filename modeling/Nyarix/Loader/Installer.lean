import Nyarix.Loader.ModuleIndex

/-! Installing a package under a root directory. Installing acts on the index and on the disk;
an error keeps what was done before it. -/

namespace Nyarix

inductive InstallOutcome where
  | installed (package : DiscoveredPackage)
  | alreadyInstalled (duplicate : DuplicateModule)
  deriving DecidableEq

structure Store where
  index : ModuleIndex
  disk : Disk

abbrev Installing := ExceptT PackageError (StateM Store)

def fs (c : Disk.Call) : Installing Unit := fun s =>
  let (r, disk) := s.disk.call c
  (r.mapError (ioError c.path), { s with disk })

/-- The part of a member's path below `payload/`, when there is one. -/
def relativePath (path : String) : Option UnixPath :=
  match path.toList.dropPrefix? PackageMember.payload.path.toList with
  | none | some [] => none
  | some relative => some ⟨relative⟩

def escapes (path : String) : IoError := .custom .invalidData s!"payload entry escapes payload/: {path}"

def unpack (payloadDir : UnixPath) : List (String × ByteArray) → Installing Unit
  | [] => return ()
  | (path, contents) :: rest => do
    match relativePath path with
    | none => unpack payloadDir rest
    | some relative =>
      if relative.hasParentDir then throw (ioError relative (escapes path))
      let destination := payloadDir.join relative
      match destination.parent with
      | some parent => fs (.createDirAll parent)
      | none => pure ()
      fs (.write destination contents)
      unpack payloadDir rest

def packageDir (installRoot : UnixPath) (info : PackageInfo) : UnixPath :=
  (installRoot.join (.new info.name)).join (.new (toString info.version))

def register (discovered : DiscoveredPackage) : Installing InstallOutcome := fun s =>
  let (duplicate, index) := s.index.insert discovered
  (.ok (match duplicate with
    | some duplicate => .alreadyInstalled duplicate
    | none => .installed discovered), { s with index })

def installPackage (codec : Codec) (data : ByteArray) (installRoot : UnixPath) : Installing InstallOutcome := do
  let reader ← PackageReader.openArchive codec data
  let info := reader.manifest.package
  let packageDir := packageDir installRoot info
  fs (.createDirAll packageDir)
  let archivePath := packageDir.join (.new "package.nyp")
  fs (.write archivePath data)
  unpack (packageDir.join (.new "payload")) (← reader.entries codec)
  register ⟨archivePath, info.name, info.version⟩

def place (destination : UnixPath) (contents : ByteArray) : List Disk.Call :=
  destination.parent.toList.map .createDirAll ++ [.write destination contents]

/-- Unpacking stops at the first member whose path has a `..`. -/
def unpackCalls (payloadDir : UnixPath) : List (String × ByteArray) → List Disk.Call
  | [] => []
  | (path, contents) :: rest =>
    match relativePath path with
    | none => unpackCalls payloadDir rest
    | some relative =>
      if relative.hasParentDir then []
      else place (payloadDir.join relative) contents ++ unpackCalls payloadDir rest

def packageCalls (packageDir : UnixPath) (data : ByteArray) : List Disk.Call :=
  [.createDirAll packageDir, .write (packageDir.join (.new "package.nyp")) data]

/-- How unpacking ends when no call fails. -/
def refusal : List (String × ByteArray) → Except PackageError Unit
  | [] => .ok ()
  | (path, _) :: rest =>
    match relativePath path with
    | none => refusal rest
    | some relative =>
      if relative.hasParentDir then .error (ioError relative (escapes path)) else refusal rest

def after {A : Type} (calls : List Disk.Call) (next : Installing A) : Installing A := fun s =>
  match s.disk.perform calls with
  | (.error (path, source), disk) => (.error (ioError path source), { s with disk })
  | (.ok (), disk) => next { s with disk }

variable {A : Type} {c : Disk.Call} {calls : List Disk.Call} {next : Installing A}

theorem bind_apply {B : Type} (x : Installing A) (f : A → Installing B) (s : Store) : (x >>= f) s =
    match x s with
    | (.ok a, s) => f a s
    | (.error e, s) => (.error e, s) := by
  change (match x s with | (r, s) => ExceptT.bindCont f r s) = _
  rcases x s with ⟨_ | _, _⟩ <;> rfl

theorem lift_apply (x : Except PackageError A) (s : Store) : (liftM x : Installing A) s = (x, s) := rfl

theorem fs_bind (c : Disk.Call) (next : Installing A) : (do fs c; next) = after [c] next := by
  funext s
  rw [bind_apply, fs, after, Disk.perform]
  rcases s.disk.call c with ⟨_ | _, disk⟩ <;> rfl

theorem after_append (calls calls' : List Disk.Call) (next : Installing A) :
    after (calls ++ calls') next = after calls (after calls' next) := by
  funext s
  rw [after, after, Disk.perform_append]
  rcases s.disk.perform calls with ⟨_ | _, disk⟩ <;> rfl

theorem place_bind (destination : UnixPath) (contents : ByteArray) (next : Installing A) :
    (do
      match destination.parent with
      | some parent => fs (.createDirAll parent)
      | none => pure ()
      fs (.write destination contents)
      next) = after (place destination contents) next := by
  rw [place]
  cases destination.parent with
  | none => exact fs_bind _ next
  | some parent =>
    rw [after_append, ← fs_bind (.write destination contents)]
    exact fs_bind (.createDirAll parent) _

theorem unpack_eq (payloadDir : UnixPath) (entries : List (String × ByteArray)) :
    unpack payloadDir entries = after (unpackCalls payloadDir entries) fun s => (refusal entries, s) := by
  induction entries with
  | nil => rfl
  | cons entry rest ih =>
    obtain ⟨path, contents⟩ := entry
    rw [unpack, unpackCalls, refusal]
    cases hrel : relativePath path with
    | none => exact ih
    | some relative =>
      by_cases hdots : relative.hasParentDir
      · simp only [hdots, if_true]
        rfl
      · simp only [hdots, Bool.false_eq_true, if_false, ih]
        exact (place_bind _ _ _).trans (after_append _ _ _).symm

/-- What an installation does once the archive is open: it writes the package, then reads the
members, then unpacks them, then registers the package. -/
theorem installPackage_eq {codec : Codec} {data : ByteArray} {reader : PackageReader}
    (h : PackageReader.openArchive codec data = .ok reader) (installRoot : UnixPath) :
    installPackage codec data installRoot =
      let info := reader.manifest.package
      let packageDir := packageDir installRoot info
      after (packageCalls packageDir data) fun s =>
        match reader.entries codec with
        | .error e => (.error e, s)
        | .ok entries => after (unpackCalls (packageDir.join (.new "payload")) entries) (fun s =>
          match refusal entries with
          | .error e => (.error e, s)
          | .ok () => register ⟨packageDir.join (.new "package.nyp"), info.name, info.version⟩ s) s := by
  funext s
  rw [installPackage, bind_apply, lift_apply, h]
  simp only [fs_bind]
  rw [← after_append]
  refine congrFun (congrArg (after _) (funext fun s => ?_)) s
  rw [bind_apply, lift_apply]
  cases reader.entries codec with
  | error e => rfl
  | ok entries =>
    simp only [bind_apply, unpack_eq, after]
    rcases s.disk.perform _ with ⟨_ | _, disk⟩
    · rfl
    · cases refusal entries <;> rfl

end Nyarix
