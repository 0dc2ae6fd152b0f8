import Nyarix.Loader.ModuleIndex

/-! Scanning directories for packages. A file that cannot be read or opened is reported and
skipped; of two files of one name and version, the first is indexed. -/

namespace Nyarix

structure ScanError where
  path : UnixPath
  error : PackageError

structure ScanReport where
  index : ModuleIndex
  errors : List ScanError
  duplicates : List DuplicateModule

/-- What the file system holds at the time of a scan: the entries of the directories that can be
read, and the contents of files. -/
structure ModuleFiles where
  readDir : UnixPath → Option (List UnixPath)
  read : UnixPath → Except IoError ByteArray

def discoverOne (codec : Codec) (files : ModuleFiles) (path : UnixPath) : Except PackageError DiscoveredPackage := do
  let data ← (files.read path).mapError (ioError path)
  let reader ← PackageReader.openArchive codec data
  return ⟨path, reader.manifest.package.name, reader.manifest.package.version⟩

def scanEntry (codec : Codec) (files : ModuleFiles) (report : ScanReport) (path : UnixPath) : ScanReport :=
  if path.extension ≠ some ['n', 'y', 'p'] then report
  else
    match discoverOne codec files path with
    | .error e => { report with errors := report.errors ++ [⟨path, e⟩] }
    | .ok package =>
      let (duplicate, index) := report.index.insert package
      { report with index := index, duplicates := report.duplicates ++ duplicate.toList }

def scanDirectories (codec : Codec) (files : ModuleFiles) (directories : List UnixPath) : ScanReport :=
  (directories.flatMap fun directory => (files.readDir directory).getD []).foldl (scanEntry codec files)
    ⟨.new, [], []⟩

/-- What is indexed was found at its path, and what is in error was not. -/
structure Scanned (codec : Codec) (files : ModuleFiles) (report : ScanReport) : Prop where
  sound : report.index.Sound
  found : ∀ name, ∀ package ∈ report.index.get name, discoverOne codec files package.path = .ok package
  failed : ∀ e ∈ report.errors, discoverOne codec files e.path = .error e.error

section Scanned
variable {codec : Codec} {files : ModuleFiles} {report : ScanReport}

theorem discoverOne_path {path : UnixPath} {package : DiscoveredPackage}
    (h : discoverOne codec files path = .ok package) : package.path = path := by
  obtain ⟨data, -, h⟩ := bind_ok.mp h
  obtain ⟨reader, -, h⟩ := bind_ok.mp h
  rw [← Except.ok.inj h]

theorem Scanned.entry (h : Scanned codec files report) (path : UnixPath) :
    Scanned codec files (scanEntry codec files report path) := by
  unfold scanEntry
  split_ifs
  · exact h
  cases hfound : discoverOne codec files path with
  | error e =>
    refine ⟨h.sound, h.found, fun e' he' => ?_⟩
    rcases List.mem_append.mp he' with he' | he'
    · exact h.failed e' he'
    · rw [List.mem_singleton.mp he']
      exact hfound
  | ok package =>
    refine ⟨h.sound.insert package, fun name other hother => ?_, h.failed⟩
    have hget := ModuleIndex.get_insert report.index package name
    change other ∈ (report.index.insert package).2.get name at hother
    rw [hget] at hother
    split_ifs at hother
    · rcases List.mem_append.mp hother with hother | hother
      · exact h.found name other hother
      · rw [List.mem_singleton.mp hother, discoverOne_path hfound]
        exact hfound
    · exact h.found name other hother

theorem scanDirectories_scanned (codec : Codec) (files : ModuleFiles) (directories : List UnixPath) :
    Scanned codec files (scanDirectories codec files directories) := by
  refine List.foldlRecOn _ (scanEntry codec files) ?_ fun report h path _ => h.entry path
  exact ⟨ModuleIndex.sound_new, fun _ _ h => absurd h List.not_mem_nil, List.forall_mem_nil _⟩

theorem Scanned.reordered (h : Scanned codec files report) {index : ModuleIndex}
    (hperm : index.packages.entries.Perm report.index.packages.entries) :
    Scanned codec files { report with index := index } := by
  have hget (name : String) : index.get name = report.index.get name := by
    rw [ModuleIndex.get, AList.perm_lookup hperm]
    rfl
  refine ⟨⟨fun name => ?_, fun name => ?_⟩, fun name => ?_, h.failed⟩
  · rw [hget]
    exact h.sound.named name
  · rw [hget]
    exact h.sound.once name
  · change ∀ package ∈ index.get name, _
    rw [hget]
    exact h.found name

theorem mem_listed {index : ModuleIndex} {package : DiscoveredPackage} :
    package ∈ index.listed ↔ ∃ name, package ∈ index.get name := by
  rw [ModuleIndex.listed, List.mem_flatMap]
  constructor
  · rintro ⟨name, -, hpackage⟩
    exact ⟨name, hpackage⟩
  · rintro ⟨name, hpackage⟩
    refine ⟨name, ?_, hpackage⟩
    by_contra hno
    rw [ModuleIndex.get, AList.lookup_eq_none.mpr hno] at hpackage
    exact absurd hpackage List.not_mem_nil

theorem Scanned.found_listed (h : Scanned codec files report) {package : DiscoveredPackage}
    (hp : package ∈ report.index.listed) : discoverOne codec files package.path = .ok package := by
  obtain ⟨name, hname⟩ := mem_listed.mp hp
  exact h.found name package hname

theorem Scanned.paths_nodup (h : Scanned codec files report) : (report.index.listed.map (·.path)).Nodup := by
  refine h.sound.listed_nodup.map_on fun package hp other ho hpath => ?_
  have hfound := h.found_listed hp
  rw [hpath, h.found_listed ho] at hfound
  exact (Except.ok.inj hfound).symm

theorem Scanned.not_failed (h : Scanned codec files report) {package : DiscoveredPackage}
    (hp : package ∈ report.index.listed) : package.path ∉ report.errors.map (·.path) := by
  intro hmem
  obtain ⟨e, he, hpath⟩ := List.mem_map.mp hmem
  have hfailed := h.failed e he
  rw [hpath, h.found_listed hp] at hfailed
  cases hfailed

end Scanned

theorem Scanned.listed_reordered {codec : Codec} {files : ModuleFiles} {report : ScanReport}
    (h : Scanned codec files report) {index : ModuleIndex}
    (hperm : index.packages.entries.Perm report.index.packages.entries) :
    index.listed.Perm report.index.listed := by
  refine (List.perm_ext_iff_of_nodup (h.reordered hperm).sound.listed_nodup h.sound.listed_nodup).mpr fun package => ?_
  rw [mem_listed, mem_listed]
  refine exists_congr fun name => ?_
  unfold ModuleIndex.get
  rw [AList.perm_lookup hperm]

def ModuleFiles.packages (files : ModuleFiles) (directories : List UnixPath) : List UnixPath :=
  (directories.flatMap fun directory => (files.readDir directory).getD []).filter (·.extension = some ['n', 'y', 'p'])

def ScanReport.paths (report : ScanReport) : List UnixPath :=
  report.index.listed.map (·.path) ++ report.errors.map (·.path) ++ report.duplicates.map (·.duplicatePath)

/-- Each of the files is indexed, in error or a duplicate of one that is indexed. -/
structure Accounted (codec : Codec) (files : ModuleFiles) (seen : List UnixPath) (report : ScanReport) : Prop where
  paths : report.paths.Perm seen
  found : ∀ duplicate ∈ report.duplicates, discoverOne codec files duplicate.duplicatePath =
    .ok ⟨duplicate.duplicatePath, duplicate.name, duplicate.version⟩
  kept : ∀ duplicate ∈ report.duplicates, ∃ kept ∈ report.index.get duplicate.name,
    kept.version = duplicate.version ∧ kept.path = duplicate.keptPath

section Accounted
variable {codec : Codec} {files : ModuleFiles} {report : ScanReport}

theorem ModuleIndex.listed_insert {index : ModuleIndex} (h : index.Sound) {package : DiscoveredPackage}
    (hnew : ¬ index.Has package.name package.version) :
    (index.insert package).2.listed.Perm (index.listed ++ [package]) := by
  have hfresh : package ∉ index.listed := by
    intro hmem
    obtain ⟨name, hname⟩ := mem_listed.mp hmem
    obtain rfl := h.named name package hname
    exact hnew ⟨package, hname, rfl⟩
  have hnodup : (index.listed ++ [package]).Nodup :=
    List.nodup_append'.mpr ⟨h.listed_nodup, List.nodup_singleton _, List.disjoint_singleton.mpr hfresh⟩
  refine (List.perm_ext_iff_of_nodup (h.insert package).listed_nodup hnodup).mpr fun other => ?_
  rw [List.mem_append, List.mem_singleton, mem_listed, mem_listed]
  constructor
  · rintro ⟨name, hmem⟩
    rw [get_insert] at hmem
    split_ifs at hmem
    · rcases List.mem_append.mp hmem with hold | hone
      · exact .inl ⟨name, hold⟩
      · exact .inr (List.mem_singleton.mp hone)
    · exact .inl ⟨name, hmem⟩
  · rintro (⟨name, hmem⟩ | rfl)
    · refine ⟨name, ?_⟩
      rw [get_insert]
      split_ifs
      · exact List.mem_append_left _ hmem
      · exact hmem
    · refine ⟨other.name, ?_⟩
      rw [get_insert, if_pos ⟨rfl, hnew⟩]
      exact List.mem_append_right _ List.mem_cons_self

theorem ModuleIndex.insert_cases (index : ModuleIndex) (package : DiscoveredPackage) :
    (¬ index.Has package.name package.version ∧ (index.insert package).1 = none) ∨
    ∃ kept ∈ index.get package.name, kept.version = package.version ∧
      index.insert package = (some ⟨package.name, package.version, kept.path, package.path⟩, index) := by
  by_cases hhas : index.Has package.name package.version
  · have hsame := insert_of_has hhas
    unfold insert at hsame ⊢
    simp only [insert_existing] at hsame ⊢
    cases hfind : (index.get package.name).find? (·.version = package.version) with
    | none =>
      obtain ⟨other, hother, hversion⟩ := hhas
      exact absurd (decide_eq_true hversion) (List.find?_eq_none.mp hfind other hother)
    | some kept =>
      rw [hfind] at hsame
      have hversion := List.find?_some hfind
      exact .inr ⟨kept, List.mem_of_find?_eq_some hfind, of_decide_eq_true hversion, Prod.ext rfl hsame⟩
  · refine .inl ⟨hhas, ?_⟩
    by_contra hsome
    exact hhas ((insert_duplicate index package).mp (Option.isSome_iff_ne_none.mpr hsome))

theorem perm_moved {α : Type*} (front back : List α) (a : α) : (front ++ [a] ++ back).Perm (front ++ back ++ [a]) := by
  rw [List.append_assoc, List.append_assoc]
  exact List.perm_append_comm.append_left front

theorem Accounted.entry {seen : List UnixPath} (h : Accounted codec files seen report) (hscan : Scanned codec files report)
    (path : UnixPath) : Accounted codec files (seen ++ [path].filter (·.extension = some ['n', 'y', 'p']))
      (scanEntry codec files report path) := by
  unfold scanEntry
  by_cases hext : path.extension = some ['n', 'y', 'p']
  swap
  · rw [if_pos hext, List.filter_cons_of_neg (by simpa using hext), List.filter_nil, List.append_nil]
    exact h
  rw [if_neg (not_not.mpr hext), List.filter_cons_of_pos (by simpa using hext), List.filter_nil]
  have hlast : (report.paths ++ [path]).Perm (seen ++ [path]) := h.paths.append_right _
  cases hfound : discoverOne codec files path with
  | error e =>
    -- the path moves to the errors, in the middle of what the report lists
    refine ⟨List.Perm.trans ?_ hlast, h.found, h.kept⟩
    unfold ScanReport.paths
    dsimp only
    rw [List.map_append, ← List.append_assoc]
    exact perm_moved _ _ path
  | ok package =>
    have hpath := discoverOne_path hfound
    dsimp only
    rcases report.index.insert_cases package with ⟨hnew, hnone⟩ | ⟨kept, hkept, hversion, hinsert⟩
    -- a new version: the path joins those of the index, which the report lists first
    · have hinsert : report.index.insert package = (none, (report.index.insert package).2) := Prod.ext hnone rfl
      rw [hinsert]
      have hlisted := (ModuleIndex.listed_insert hscan.sound hnew).map (·.path)
      rw [List.map_append, List.map_singleton, hpath] at hlisted
      constructor
      · refine List.Perm.trans ?_ hlast
        unfold ScanReport.paths
        dsimp only [Option.toList_none]
        rw [List.append_nil]
        have hmoved := perm_moved (report.index.listed.map (·.path))
          (report.errors.map (·.path) ++ report.duplicates.map (·.duplicatePath)) path
        rw [← List.append_assoc, ← List.append_assoc (report.index.listed.map _)] at hmoved
        exact ((hlisted.append_right _).append_right _).trans hmoved
      · intro duplicate hduplicate
        dsimp only [Option.toList_none] at hduplicate
        rw [List.append_nil] at hduplicate
        exact h.found duplicate hduplicate
      · intro duplicate hduplicate
        dsimp only [Option.toList_none] at hduplicate
        rw [List.append_nil] at hduplicate
        obtain ⟨kept, hkept, hsame⟩ := h.kept duplicate hduplicate
        refine ⟨kept, ?_, hsame⟩
        dsimp only
        rw [ModuleIndex.get_insert]
        split_ifs
        · exact List.mem_append_left _ hkept
        · exact hkept
    · -- the version is there already: the path comes last, as a duplicate of the one that is kept
      rw [hinsert]
      constructor
      · refine List.Perm.trans ?_ hlast
        unfold ScanReport.paths
        dsimp only [Option.toList_some]
        rw [List.map_append, List.map_singleton, hpath, ← List.append_assoc]
      · intro duplicate hduplicate
        rcases List.mem_append.mp hduplicate with hold | hone
        · exact h.found duplicate hold
        · rw [List.mem_singleton.mp hone]
          change discoverOne codec files package.path = .ok package
          rw [hpath, hfound]
      · intro duplicate hduplicate
        rcases List.mem_append.mp hduplicate with hold | hone
        · exact h.kept duplicate hold
        · rw [List.mem_singleton.mp hone]
          exact ⟨kept, hkept, hversion, rfl⟩

theorem scanDirectories_accounted (codec : Codec) (files : ModuleFiles) (directories : List UnixPath) :
    Accounted codec files (files.packages directories) (scanDirectories codec files directories) := by
  unfold ModuleFiles.packages scanDirectories
  generalize directories.flatMap (fun directory => (files.readDir directory).getD []) = found
  have hstart : Scanned codec files ⟨.new, [], []⟩ :=
    ⟨ModuleIndex.sound_new, fun _ _ h => absurd h List.not_mem_nil, List.forall_mem_nil _⟩
  suffices h : ∀ (seen : List UnixPath) (report : ScanReport), Scanned codec files report → Accounted codec files seen report →
      Accounted codec files (seen ++ found.filter (·.extension = some ['n', 'y', 'p'])) (found.foldl (scanEntry codec files) report) from
    h [] ⟨.new, [], []⟩ hstart ⟨.refl _, List.forall_mem_nil _, List.forall_mem_nil _⟩
  induction found with
  | nil =>
    intro seen report _ h
    rw [List.filter_nil, List.append_nil]
    exact h
  | cons path found ih =>
    intro seen report hscan h
    have hrest := ih _ _ (hscan.entry path) (h.entry hscan path)
    rw [List.append_assoc, ← List.filter_append, List.singleton_append] at hrest
    exact hrest

end Accounted
end Nyarix
