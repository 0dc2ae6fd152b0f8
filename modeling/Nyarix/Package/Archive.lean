import Nyarix.Package.Manifest

/-! The `.nyp` container: its members, and the reader that scans its `tar` stream anew for
each request. The codecs are parameters. -/

namespace Nyarix

inductive PackageMember where
  | manifest | payload | assets | signatures
  deriving DecidableEq, Repr

namespace PackageMember

def all : List PackageMember := [.manifest, .payload, .assets, .signatures]

def path : PackageMember → String
  | .manifest => "manifest.toml"
  | .payload => "payload/"
  | .assets => "assets/"
  | .signatures => "signatures/"

def required : PackageMember → Bool
  | .manifest => true
  | _ => false

end PackageMember

def validateLayout (entries : List String) : Except PackageError Unit :=
  match PackageMember.all.find? fun member => member.required && member.path ∉ entries with
  | some member => .error (.missingMember member.path)
  | none => .ok ()

theorem validateLayout_ok {entries : List String} (h : validateLayout entries = .ok ()) :
    PackageMember.manifest.path ∈ entries := by
  unfold validateLayout at h
  split at h
  · cases h
  · next hnone =>
    have hmanifest := List.find?_eq_none.mp hnone .manifest List.mem_cons_self
    simpa only [PackageMember.required, Bool.true_and, decide_eq_true_eq, not_not] using hmanifest

/-- One entry of a `tar` stream: its path, with what is not UTF-8 replaced, and its bytes. -/
structure TarEntry where
  path : Except IoError String
  contents : Except IoError ByteArray

def notUtf8 : IoError := .custom .invalidData "stream did not contain valid UTF-8"

def TarEntry.readToString (entry : TarEntry) : Except IoError String := do
  let bytes ← entry.contents
  match String.fromUTF8? bytes with
  | some text => .ok text
  | none => .error notUtf8

/-- The readers of the formats that an archive is made of. -/
structure Codec where
  /-- Decompress a `zstd` stream. -/
  decodeAll : ByteArray → Except IoError ByteArray
  /-- The entries of a `tar` stream, in order. -/
  tarEntries : ByteArray → Except IoError (List (Except IoError TarEntry))
  /-- Read a manifest from TOML, or say why it is none. -/
  toml : String → Except String PackageManifest

def archiveError (source : IoError) : PackageError := .io "<in-memory .nyp archive>" source

/-- What the scan of `open` has found: a manifest exactly when it came by the manifest's path. -/
structure Scan where
  entryPaths : List String
  manifestRaw : Option String
  found : PackageMember.manifest.path ∈ entryPaths ↔ manifestRaw.isSome

def Scan.new : Scan := ⟨[], none, by simp⟩

def Scan.push (scan : Scan) (path : String) (raw : Option String)
    (h : path = PackageMember.manifest.path ↔ raw.isSome) : Scan :=
  ⟨scan.entryPaths ++ [path], raw <|> scan.manifestRaw, by
    rw [List.mem_append, List.mem_singleton, scan.found, eq_comm (b := path), h]
    cases raw <;> simp⟩

def Scan.entry (scan : Scan) (entry : TarEntry) : Except PackageError Scan := do
  let path ← entry.path.mapError archiveError
  if h : path = PackageMember.manifest.path then
    let buf ← entry.readToString.mapError archiveError
    return scan.push path (some buf) (by simp [h])
  else return scan.push path none (by simp [h])

structure PackageReader where
  tarBytes : ByteArray
  manifest : PackageManifest

namespace PackageReader
variable (codec : Codec)

/-- Every entry of the stream, each passed to `f`; the first error ends the scan. -/
def scanEntries {A : Type} (tarBytes : ByteArray) (f : A → TarEntry → Except PackageError A) (a : A) :
    Except PackageError A := do
  let rows ← (codec.tarEntries tarBytes).mapError archiveError
  rows.foldlM (fun a row => do f a (← row.mapError archiveError)) a

def openArchive (data : ByteArray) : Except PackageError PackageReader := do
  let tarBytes ← (codec.decodeAll data).mapError archiveError
  let scan ← scanEntries codec tarBytes Scan.entry .new
  match h : validateLayout scan.entryPaths with
  | .error e => .error e
  | .ok () =>
    let manifest ← PackageManifest.fromToml codec.toml (scan.manifestRaw.get (scan.found.mp (validateLayout_ok h)))
    return ⟨tarBytes, manifest⟩

/-- The bytes of the first member of that path; nothing after it is read. -/
def readRows (path : String) : List (Except IoError TarEntry) → Except PackageError (Option ByteArray)
  | [] => .ok none
  | row :: rows => do
    let entry ← row.mapError archiveError
    let entryPath ← entry.path.mapError archiveError
    if entryPath = path then
      let buf ← entry.contents.mapError archiveError
      return some buf
    else readRows path rows

def readEntry (reader : PackageReader) (path : String) : Except PackageError (Option ByteArray) := do
  let rows ← (codec.tarEntries reader.tarBytes).mapError archiveError
  readRows path rows

def entries (reader : PackageReader) : Except PackageError (List (String × ByteArray)) :=
  scanEntries codec reader.tarBytes (fun entries entry => do
    let path ← entry.path.mapError archiveError
    let buf ← entry.contents.mapError archiveError
    return entries ++ [(path, buf)]) []

end PackageReader

theorem bind_ok {E A B : Type} {x : Except E A} {f : A → Except E B} {b : B} :
    (x >>= f) = .ok b ↔ ∃ a, x = .ok a ∧ f a = .ok b := by
  cases x with
  | error e => exact ⟨fun h => (by cases h), fun ⟨_, h, _⟩ => (by cases h)⟩
  | ok a => exact ⟨fun h => ⟨a, rfl, h⟩, fun ⟨_, h, hf⟩ => Except.ok.inj h ▸ hf⟩

def firstContents (entries : List (String × ByteArray)) (path : String) : Option ByteArray :=
  (entries.find? (·.1 = path)).map Prod.snd

theorem readRows_of_foldlM (path : String) {rows : List (Except IoError TarEntry)}
    {before entries : List (String × ByteArray)}
    (h : rows.foldlM (fun entries row => do
      let entry ← row.mapError archiveError
      let path ← entry.path.mapError archiveError
      let buf ← entry.contents.mapError archiveError
      return entries ++ [(path, buf)]) before = .ok entries) :
    ∃ rest, entries = before ++ rest ∧ PackageReader.readRows path rows = .ok (firstContents rest path) := by
  induction rows generalizing before with
  | nil =>
    obtain rfl := Except.ok.inj h
    exact ⟨[], (List.append_nil _).symm, rfl⟩
  | cons row rows ih =>
    rw [List.foldlM_cons] at h
    obtain ⟨next, hstep, h⟩ := bind_ok.mp h
    obtain ⟨entry, hrow, hstep⟩ := bind_ok.mp hstep
    obtain ⟨entryPath, hpath, hstep⟩ := bind_ok.mp hstep
    obtain ⟨buf, hbuf, hstep⟩ := bind_ok.mp hstep
    obtain rfl := Except.ok.inj hstep
    obtain ⟨rest, rfl, hrest⟩ := ih h
    refine ⟨(entryPath, buf) :: rest, by rw [List.append_assoc, List.singleton_append], ?_⟩
    rw [PackageReader.readRows]
    refine bind_ok.mpr ⟨entry, hrow, bind_ok.mpr ⟨entryPath, hpath, ?_⟩⟩
    by_cases hp : entryPath = path
    · rw [if_pos hp, firstContents, List.find?_cons_of_pos (by simpa using hp)]
      exact bind_ok.mpr ⟨buf, hbuf, rfl⟩
    · rw [if_neg hp, firstContents, List.find?_cons_of_neg (by simpa using hp)]
      exact hrest

theorem readEntry_of_entries {codec : Codec} {reader : PackageReader} {entries : List (String × ByteArray)}
    (h : reader.entries codec = .ok entries) (path : String) :
    reader.readEntry codec path = .ok (firstContents entries path) := by
  obtain ⟨rows, hrows, h⟩ := bind_ok.mp h
  obtain ⟨rest, hrest, hread⟩ := readRows_of_foldlM path h
  rw [List.nil_append] at hrest
  exact bind_ok.mpr ⟨rows, hrows, hrest ▸ hread⟩

/-- Readers that take any bytes for an archive of a manifest with that name, version 1.0.0,
and of such members. -/
def stubCodec (name : String) (members : List (String × ByteArray)) : Codec where
  decodeAll := .ok
  tarEntries _ := .ok ((("manifest.toml", ByteArray.empty) :: members).map fun (path, contents) =>
    .ok ⟨.ok path, .ok contents⟩)
  toml _ := .ok (stubManifest name [])

def stubReader (name : String) (data : ByteArray) : PackageReader := ⟨data, stubManifest name []⟩

end Nyarix
