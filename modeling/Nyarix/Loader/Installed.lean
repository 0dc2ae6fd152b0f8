import Nyarix.Lib.Document
import Nyarix.Loader.Reinstall
import Nyarix.Loader.Rollback

/-! What stays of an installed package: its files, until it is installed anew or somebody else takes them,
and the way back to it. -/

namespace Disk

def read (d : Disk) (p : UnixPath) : Except IoError ByteArray :=
  if p.named then
    match d.file (p.locate d.cwd) with
    | none => .error (.os 2)
    | some contents => .ok contents
  else .error isADirectory

theorem lastWrite_of_forall {writes : List (Location × ByteArray)} {l : Location} {contents : ByteArray}
    (hsome : (l, contents) ∈ writes) (h : ∀ w ∈ writes, w.1 = l → w.2 = contents) : lastWrite writes l = some contents := by
  have hfound : (writes.reverse.find? (·.1 = l)).isSome :=
    List.find?_isSome.mpr ⟨_, List.mem_reverse.mpr hsome, decide_eq_true rfl⟩
  obtain ⟨w, hw⟩ := Option.isSome_iff_exists.mp hfound
  have hmem := List.mem_reverse.mp (List.mem_of_find?_eq_some hw)
  have hl : w.1 = l := by simpa using List.find?_some hw
  unfold lastWrite
  rw [hw, Option.map_some, h w hmem hl]

theorem lastWrite_eq_none {writes : List (Location × ByteArray)} {l : Location} (h : ∀ w ∈ writes, w.1 ≠ l) :
    lastWrite writes l = none := by
  unfold lastWrite
  rw [List.find?_eq_none.mpr fun w hw heq => h w (List.mem_reverse.mp hw) (of_decide_eq_true heq)]
  rfl

theorem landed_completes {faults : List (Option Fault)} {calls : List Call} (h : Completes faults calls)
    (cwd : Location) : landed cwd faults calls = calls.flatMap (Call.leaves cwd) := by
  induction calls generalizing faults with
  | nil => rfl
  | cons c calls ih =>
    have hc := h.1 c List.mem_cons_self
    have hrest : Completes faults.tail calls := by
      refine ⟨fun c hc => h.1 c (List.mem_cons_of_mem _ hc), fun f hf => ?_⟩
      cases faults with
      | nil =>
        rw [List.tail_nil, List.take_nil] at hf
        exact absurd hf List.not_mem_nil
      | cons fault faults => exact h.2 f (List.mem_cons_of_mem _ hf)
    rcases faults with _ | ⟨_ | fault, faults⟩
    · rw [landed, if_pos hc, ih hrest]
      · rfl
      · exact fun _ _ hcons => by cases hcons
    · rw [landed, if_pos hc, ih hrest]
      · rfl
      · exact fun _ _ hcons => by cases hcons
    · cases h.2 _ List.mem_cons_self

end Disk

namespace Nyarix
open Semver (Version)

def PlainName (name : String) : Prop := '/' ∉ name.toList ∧ UnixPath.segment name.toList = some (.normal name.toList)

def packageLocation (root : Location) (name : String) (version : Version) : Location :=
  root ++ [name.toList, version.text]

/-- An archive that opens has a plain name, and no payload member has an absolute path. -/
def Orderly (codec : Codec) (data : ByteArray) : Prop := ∀ reader, PackageReader.openArchive codec data = .ok reader →
  PlainName reader.manifest.package.name ∧ ∀ m ∈ reached (membersOf codec reader), ¬ m.1.isAbsolute

theorem Version.slash_notMem_text (version : Version) : '/' ∉ version.text := by
  have hdigits : ∀ n, '/' ∉ Nat.toDigits 10 n :=
    fun n h => absurd (Semver.Version.isDigit_of_mem_toDigits h) (by decide)
  have hmarked : ∀ mark ids, '/' ≠ mark → '/' ∉ Semver.Version.marked mark ids := by
    intro mark ids hne h
    rcases Semver.Version.mem_marked h with heq | hmem
    · exact hne heq
    · exact absurd (ids.valid _ hmem) (by decide)
  unfold Semver.Version.text
  simp only [List.mem_append, List.mem_cons, not_or]
  exact ⟨hdigits _, by decide, hdigits _, by decide, hdigits _, hmarked _ _ (by decide), hmarked _ _ (by decide)⟩

theorem Version.segment_text (version : Version) : UnixPath.segment version.text = some (.normal version.text) := by
  obtain ⟨digit, digits, hdigits⟩ := List.exists_cons_of_ne_nil (Nat.toDigits_ne_nil (n := version.major.toNat) (b := 10))
  have hdigit : digit.isDigit := Semver.Version.isDigit_of_mem_toDigits (hdigits ▸ List.mem_cons_self)
  have hdot : digit ≠ '.' := by
    rintro rfl
    exact absurd hdigit (by decide)
  have htext : ∃ rest, version.text = digit :: rest := by
    unfold Semver.Version.text
    rw [hdigits]
    exact ⟨_, rfl⟩
  obtain ⟨rest, htext⟩ := htext
  rw [htext]
  unfold UnixPath.segment
  split
  · next heq => cases heq
  · next heq => exact absurd (List.cons.inj heq).1 hdot
  · next heq => exact absurd (List.cons.inj heq).1 hdot
  · rfl

theorem locate_packageDir (installRoot : UnixPath) {info : PackageInfo} (h : PlainName info.name) (cwd : Location) :
    (packageDir installRoot info).locate cwd = packageLocation (installRoot.locate cwd) info.name info.version := by
  have hversion : (toString info.version).toList = info.version.text := String.toList_ofList
  unfold packageDir packageLocation UnixPath.new
  rw [hversion, (UnixPath.join_name (Version.slash_notMem_text _) (Version.segment_text _) _ cwd).1,
    (UnixPath.join_name h.1 h.2 installRoot cwd).1, List.append_assoc]
  rfl

theorem packageLocation_inj {root l : Location} {name name' : String} {version version' : Version}
    (h : packageLocation root name version <+: l) (h' : packageLocation root name' version' <+: l) :
    name = name' ∧ version = version' := by
  have hlength : (packageLocation root name version).length = (packageLocation root name' version').length := by
    simp [packageLocation]
  have heq := List.append_cancel_left (List.prefix_of_prefix_length_le h h' hlength.le |>.eq_of_length hlength)
  obtain ⟨hname, hrest⟩ := List.cons.inj heq
  exact ⟨String.toList_inj.mp hname, Semver.Version.text_injective (List.cons.inj hrest).1⟩

section Files
variable {codec : Codec} {data : ByteArray} {reader : PackageReader} (installRoot : UnixPath)

theorem leaves_installCalls (horderly : Orderly codec data) (h : PackageReader.openArchive codec data = .ok reader)
    (cwd : Location) {c : Disk.Call} (hc : c ∈ (installCalls codec data reader installRoot).takeWhile Disk.Call.sound)
    {w : Location × ByteArray} (hw : w ∈ c.leaves cwd) :
    let dir := packageLocation (installRoot.locate cwd) reader.manifest.package.name reader.manifest.package.version
    w = (dir ++ ["package.nyp".toList], data) ∨ dir ++ ["payload".toList] <+: w.1 := by
  obtain ⟨hname, hrelative⟩ := horderly reader h
  have hdir := locate_packageDir installRoot hname cwd
  unfold installCalls at hc
  rw [takeWhile_packageCalls] at hc
  rcases List.mem_append.mp hc with hc | hc
  · rcases List.mem_cons.mp hc with rfl | hc
    · exact absurd hw List.not_mem_nil
    · rw [List.mem_singleton.mp hc] at hw
      rw [List.mem_singleton.mp hw, archive_step, hdir]
      exact .inl rfl
  · rw [takeWhile_unpackCalls] at hc
    obtain ⟨m, hm, hc⟩ := List.mem_flatMap.mp hc
    rcases mem_takeWhile_place.mp hc with ⟨q, hq, rfl⟩ | ⟨hnamed, rfl⟩
    · exact absurd hw List.not_mem_nil
    · rw [UnixPath.named_join] at hnamed
      have hbelow := (relative_member ((packageDir installRoot reader.manifest.package).join (.new "payload")) cwd
        (reached_noParentDir hm) (hrelative m hm)).2 hnamed
      rw [(payload_step _ cwd).1, hdir] at hbelow
      rw [List.mem_singleton.mp hw]
      exact .inr hbelow.1

theorem landed_in_package (horderly : Orderly codec data) (h : PackageReader.openArchive codec data = .ok reader)
    (cwd : Location) (faults : List (Option Fault)) {w : Location × ByteArray}
    (hw : w ∈ Disk.landed cwd faults (installCalls codec data reader installRoot)) :
    packageLocation (installRoot.locate cwd) reader.manifest.package.name reader.manifest.package.version <+: w.1 := by
  obtain ⟨c, hc, v, hv, hvw⟩ := Disk.landed_location hw
  rw [← hvw]
  rcases leaves_installCalls installRoot horderly h cwd hc hv with rfl | hpayload
  · exact List.prefix_append _ _
  · exact (List.prefix_append _ _).trans hpayload

def installedFiles (codec : Codec) (data : ByteArray) (reader : PackageReader) (cwd : Location) :
    List (Location × ByteArray) := (installCalls codec data reader installRoot).flatMap (Disk.Call.leaves cwd)

theorem lastWrite_archive (horderly : Orderly codec data) (h : PackageReader.openArchive codec data = .ok reader)
    (cwd : Location) (hsound : ∀ c ∈ installCalls codec data reader installRoot, c.sound) :
    Disk.lastWrite (installedFiles installRoot codec data reader cwd) ((archivePath installRoot
      reader.manifest.package.name reader.manifest.package.version).locate cwd) = some data := by
  have harchive : (archivePath installRoot reader.manifest.package.name reader.manifest.package.version).locate cwd =
      packageLocation (installRoot.locate cwd) reader.manifest.package.name reader.manifest.package.version ++
        ["package.nyp".toList] :=
    (archive_step _ cwd).trans (congrArg (· ++ ["package.nyp".toList]) (locate_packageDir installRoot (horderly reader h).1 cwd))
  apply Disk.lastWrite_of_forall
  · exact List.mem_flatMap.mpr ⟨.write _ data, List.mem_append_left _ (List.mem_cons_of_mem _ List.mem_cons_self),
      List.mem_singleton_self _⟩
  · intro w hw hl
    obtain ⟨c, hc, hw⟩ := List.mem_flatMap.mp hw
    rw [← List.takeWhile_eq_self_iff.mpr hsound] at hc
    rcases leaves_installCalls installRoot horderly h cwd hc hw with rfl | hpayload
    · rfl
    · rw [hl, harchive] at hpayload
      have heq := (List.prefix_append_right_inj _).mp hpayload
      exact absurd heq (by decide)

end Files

structure Loader where
  store : Store
  history : RollbackHistory

inductive LoaderStep where
  | install (data : ByteArray) (faults : List (Option Fault))
  | recordInstall (now : Nat) (name : String) (version : Version)
  | rollback (validating : Validating) (now : Nat) (name : String)
  /-- what anybody else makes of the disk -/
  | elsewhere (disk : Disk)

namespace Loader
variable (codec : Codec) (installRoot : UnixPath)

def install (s : Loader) (data : ByteArray) (faults : List (Option Fault)) : Except PackageError InstallOutcome × Store :=
  installPackage codec data installRoot { s.store with disk := s.store.disk.withFaults faults }

def rollback [LinearOrder Version] (s : Loader) (validating : Validating) (now : Nat) (name : String) :
    Except RollbackError Version × RollbackHistory :=
  rollbackPackage ⟨validating, s.store.disk.read, installRoot, s.store.index⟩ now name s.history

def step [LinearOrder Version] (s : Loader) : LoaderStep → Loader
  | .install data faults => { s with store := (s.install codec installRoot data faults).2 }
  | .recordInstall now name version => { s with history := s.history.recordInstall now name version }
  | .rollback validating now name => { s with history := (s.rollback installRoot validating now name).2 }
  | .elsewhere disk => { s with store := { s.store with disk } }

/-- An install is of another package, or of another version; and nobody else touches what is below the
directory of this one. -/
def Spares (name : String) (version : Version) (s : Loader) : LoaderStep → Prop
  | .install data _ => Orderly codec data ∧ ∀ reader, PackageReader.openArchive codec data = .ok reader →
      ¬ (reader.manifest.package.name = name ∧ reader.manifest.package.version = version)
  | .recordInstall .. | .rollback .. => True
  | .elsewhere disk => disk.cwd = s.store.disk.cwd ∧
      ∀ l, packageLocation (installRoot.locate disk.cwd) name version <+: l → disk.file l = s.store.disk.file l

structure Keeps (name : String) (version : Version) (cwd : Location) (files : Location → Option ByteArray)
    (s : Loader) : Prop where
  workingDir : s.store.disk.cwd = cwd
  files : ∀ l, packageLocation (installRoot.locate cwd) name version <+: l → s.store.disk.file l = files l
  listed : s.store.index.Has name version

theorem has_insert {index : ModuleIndex} {name : String} {version : Version} (h : index.Has name version)
    (package : DiscoveredPackage) : (index.insert package).2.Has name version := by
  obtain ⟨found, hfound, hversion⟩ := h
  refine ⟨found, ?_, hversion⟩
  rw [ModuleIndex.get_insert]
  split_ifs
  · exact List.mem_append_left _ hfound
  · exact hfound

theorem has_insert_self (index : ModuleIndex) (package : DiscoveredPackage) :
    (index.insert package).2.Has package.name package.version := by
  by_cases hhas : index.Has package.name package.version
  · exact has_insert hhas package
  · refine ⟨package, ?_, rfl⟩
    rw [ModuleIndex.get_insert, if_pos ⟨rfl, hhas⟩]
    exact List.mem_append_right _ (List.mem_singleton_self package)

variable {codec installRoot} {name : String} {version : Version} {cwd : Location} {files : Location → Option ByteArray}
  {s : Loader} {data : ByteArray} {faults : List (Option Fault)} {reader : PackageReader}

theorem install_cwd (h : PackageReader.openArchive codec data = .ok reader) :
    (s.install codec installRoot data faults).2.disk.cwd = s.store.disk.cwd := by
  unfold install
  rw [installPackage_disk h, Disk.perform_cwd]
  rfl

theorem install_file (h : PackageReader.openArchive codec data = .ok reader) (l : Location) :
    (s.install codec installRoot data faults).2.disk.file l =
      (Disk.lastWrite (Disk.landed s.store.disk.cwd faults (installCalls codec data reader installRoot)) l).or
        (s.store.disk.file l) := by
  unfold install
  rw [installPackage_disk h, Disk.file, Disk.perform_writes, Disk.lastWrite_append]
  rfl

theorem install_open_error {e : PackageError} (h : PackageReader.openArchive codec data = .error e) :
    s.install codec installRoot data faults = (.error e, { s.store with disk := s.store.disk.withFaults faults }) := by
  unfold install
  rw [installPackage, bind_apply, lift_apply, h]

theorem has_install (h : s.store.index.Has name version) (data : ByteArray) (faults : List (Option Fault)) :
    (s.install codec installRoot data faults).2.index.Has name version := by
  cases hopen : PackageReader.openArchive codec data with
  | error e =>
    rw [install_open_error hopen]
    exact h
  | ok reader =>
    unfold install
    rcases installPackage_cases hopen installRoot { s.store with disk := s.store.disk.withFaults faults } with
      ⟨e, disk, heq, -⟩ | ⟨disk, path, heq, -⟩ <;> rw [heq]
    · exact h
    · exact has_insert h _

theorem install_elsewhere (horderly : Orderly codec data) (h : PackageReader.openArchive codec data = .ok reader)
    (hother : ¬ (reader.manifest.package.name = name ∧ reader.manifest.package.version = version)) {l : Location}
    (hl : packageLocation (installRoot.locate s.store.disk.cwd) name version <+: l) :
    (s.install codec installRoot data faults).2.disk.file l = s.store.disk.file l := by
  rw [install_file h, Disk.lastWrite_eq_none]
  · rfl
  · intro w hw heq
    have hbelow := landed_in_package installRoot horderly h s.store.disk.cwd faults hw
    rw [heq] at hbelow
    exact hother (packageLocation_inj hbelow hl)

theorem read_archive {disk : Disk} (h : disk.file ((archivePath installRoot name version).locate disk.cwd) = some data) :
    disk.read (archivePath installRoot name version) = .ok data := by
  have hnamed : (archivePath installRoot name version).named := (UnixPath.named_join _ _).trans (by decide)
  unfold Disk.read
  rw [if_pos hnamed, h]

theorem installed (horderly : Orderly codec data) (h : PackageReader.openArchive codec data = .ok reader)
    (hok : ∃ outcome, (s.install codec installRoot data faults).1 = .ok outcome) :
    (∀ l contents, Disk.lastWrite (installedFiles installRoot codec data reader s.store.disk.cwd) l = some contents →
      packageLocation (installRoot.locate s.store.disk.cwd) reader.manifest.package.name
          reader.manifest.package.version <+: l ∧
        (s.install codec installRoot data faults).2.disk.file l = some contents) ∧
    Disk.lastWrite (installedFiles installRoot codec data reader s.store.disk.cwd) ((archivePath installRoot
      reader.manifest.package.name reader.manifest.package.version).locate s.store.disk.cwd) = some data ∧
    Opens codec data reader.manifest ∧
    (s.install codec installRoot data faults).2.index.Has reader.manifest.package.name
      reader.manifest.package.version := by
  obtain ⟨outcome, hok⟩ := hok
  rcases installPackage_cases h installRoot { s.store with disk := s.store.disk.withFaults faults } with
    ⟨e, disk, heq, -⟩ | ⟨disk, path, heq, hunpacks⟩
  · unfold install at hok
    rw [heq] at hok
    cases hok
  · obtain ⟨⟨entries, hentries, -⟩, hcalls⟩ := hunpacks
    have hcompletes : Disk.Completes faults (installCalls codec data reader installRoot) := hcalls
    have hlanded := Disk.landed_completes hcompletes s.store.disk.cwd
    refine ⟨fun l contents hlast => ⟨?_, ?_⟩, ?_, ⟨reader, entries, h, hentries, rfl⟩, ?_⟩
    · -- a file that lies elsewhere would not be one of these
      unfold installedFiles at hlast
      rw [← hlanded] at hlast
      by_contra hno
      rw [Disk.lastWrite_eq_none] at hlast
      · cases hlast
      · rintro w hw rfl
        exact hno (landed_in_package installRoot horderly h _ faults hw)
    · rw [install_file h, hlanded]
      unfold installedFiles at hlast
      rw [hlast]
      rfl
    · exact lastWrite_archive installRoot horderly h _ hcompletes.1
    · unfold install
      rw [heq]
      exact has_insert_self _ _

section Runs
variable [LinearOrder Version]

theorem Keeps.step (h : Keeps installRoot name version cwd files s) {l : LoaderStep}
    (hspares : Spares codec installRoot name version s l) :
    Keeps installRoot name version cwd files (s.step codec installRoot l) := by
  cases l with
  | recordInstall | rollback => exact ⟨h.workingDir, h.files, h.listed⟩
  | elsewhere disk =>
    obtain ⟨hcwd, hfiles⟩ := hspares
    have hdir := hcwd.trans h.workingDir
    refine ⟨hdir, fun l hl => ?_, h.listed⟩
    exact (hfiles l (hdir ▸ hl)).trans (h.files l hl)
  | install data faults =>
    obtain ⟨horderly, hother⟩ := hspares
    have hlisted : (s.install codec installRoot data faults).2.index.Has name version := has_install h.listed data faults
    cases hopen : PackageReader.openArchive codec data with
    | error e =>
      have hsame : s.install codec installRoot data faults =
          (.error e, { s.store with disk := s.store.disk.withFaults faults }) := install_open_error hopen
      refine ⟨?_, fun l hl => ?_, hlisted⟩
      · exact (congrArg (fun r => r.2.disk.cwd) hsame).trans h.workingDir
      · exact (congrArg (fun r => r.2.disk.file l) hsame).trans (h.files l hl)
    | ok reader =>
      refine ⟨(install_cwd hopen).trans h.workingDir, fun l hl => ?_, hlisted⟩
      exact (install_elsewhere horderly hopen (hother reader hopen) (h.workingDir ▸ hl)).trans (h.files l hl)

theorem rollback_installed {manifest : PackageManifest} {validating : Validating} (now : Nat)
    (hfile : s.store.disk.file ((archivePath installRoot name version).locate s.store.disk.cwd) = some data)
    (hopens : Opens validating.checking.codec data manifest) (hprevious : s.history.previousVersion name = some version) :
    let conflicts := detectConflicts validating.reqMatches [manifest] s.store.index validating.requiredApiVersion
    s.rollback installRoot validating now name =
      if conflicts = [] ∧ platformSupported validating manifest then
        (.ok version, s.history.recordRollback now name version)
      else (.error (.incompatible name version conflicts), s.history) := by
  intro conflicts
  have hactive : s.history.activeVersion name ≠ none := by
    rw [RollbackHistory.previousVersion_eq] at hprevious
    rw [RollbackHistory.activeVersion_eq]
    intro hnone
    rw [List.head?_eq_none_iff.mp hnone] at hprevious
    cases hprevious
  have hread := read_archive hfile
  obtain ⟨status, level, hvalidate⟩ := validatePackage_of_opens hopens [] s.store.index
  unfold rollback rollbackPackage
  rw [if_neg hactive, hprevious]
  dsimp only
  rw [hread]
  dsimp only
  rw [hvalidate]
  dsimp only
  have hvalid : (ValidationReport.mk status level conflicts (platformSupported validating manifest)).isValid ↔
      conflicts = [] ∧ platformSupported validating manifest := by
    rw [ValidationReport.isValid, Bool.and_eq_true, List.isEmpty_iff]
  by_cases hboth : conflicts = [] ∧ platformSupported validating manifest
  · rw [if_pos hboth, List.nil_append, if_pos (hvalid.mpr hboth)]
  · rw [if_neg hboth, List.nil_append, if_neg (mt hvalid.mp hboth)]

/-- A package that has been installed keeps its files as long as nothing of that name and version is
installed and nobody else touches them, whatever else the loader does and however that ends. If it is the
version to go back to, a rollback finds it and fails only for a conflict or an unsupported platform. -/
theorem installed_package_stays (horderly : Orderly codec data) (h : PackageReader.openArchive codec data = .ok reader)
    (hok : ∃ outcome, (s.install codec installRoot data faults).1 = .ok outcome) {steps : List LoaderStep}
    (hspares : Fold.Along (step codec installRoot) (Spares codec installRoot reader.manifest.package.name
      reader.manifest.package.version) (s.step codec installRoot (.install data faults)) steps) :
    let info := reader.manifest.package
    let s' := steps.foldl (step codec installRoot) (s.step codec installRoot (.install data faults))
    (∀ l contents, Disk.lastWrite (installedFiles installRoot codec data reader s.store.disk.cwd) l = some contents →
      packageLocation (installRoot.locate s.store.disk.cwd) info.name info.version <+: l ∧
        s'.store.disk.file l = some contents) ∧
    s'.store.disk.read (archivePath installRoot info.name info.version) = .ok data ∧
    s'.store.index.Has info.name info.version ∧
    ∀ validating now, validating.checking.codec = codec → s'.history.previousVersion info.name = some info.version →
      let conflicts := detectConflicts validating.reqMatches [reader.manifest] s'.store.index
        validating.requiredApiVersion
      s'.rollback installRoot validating now info.name =
        if conflicts = [] ∧ platformSupported validating reader.manifest then
          (.ok info.version, s'.history.recordRollback now info.name info.version)
        else (.error (.incompatible info.name info.version conflicts), s'.history) := by
  intro info s'
  -- what the installation leaves is where the run begins; each step keeps it
  obtain ⟨hfiles, harchive, hopens, hlisted⟩ := installed horderly h hok
  have hstart : Keeps installRoot info.name info.version s.store.disk.cwd
      (s.install codec installRoot data faults).2.disk.file (s.step codec installRoot (.install data faults)) :=
    ⟨install_cwd h, fun _ _ => rfl, hlisted⟩
  have hkeeps : Keeps installRoot info.name info.version s.store.disk.cwd
      (s.install codec installRoot data faults).2.disk.file s' :=
    Fold.throughout_of_along (fun _ _ hkeeps hspares => hkeeps.step hspares) hstart hspares steps List.prefix_rfl
  have hstays : ∀ l contents,
      Disk.lastWrite (installedFiles installRoot codec data reader s.store.disk.cwd) l = some contents →
      packageLocation (installRoot.locate s.store.disk.cwd) info.name info.version <+: l ∧
        s'.store.disk.file l = some contents := by
    intro l contents hlast
    obtain ⟨hbelow, hfile⟩ := hfiles l contents hlast
    exact ⟨hbelow, (hkeeps.files l hbelow).trans hfile⟩
  have hfile := (hstays _ _ harchive).2
  rw [← hkeeps.workingDir] at hfile
  refine ⟨hstays, ?_, hkeeps.listed, fun validating now hcodec hprevious => ?_⟩
  · exact read_archive hfile
  · exact rollback_installed now hfile (hcodec ▸ hopens) hprevious

end Runs

def blank : Loader := ⟨⟨.new, stubDisk⟩, .new⟩

def relayCodec : Codec := stubCodec "relay" [("payload/a/b.wasm", ⟨#[1]⟩)]

def relayChecks : Validating := ⟨{ stubChecking [] with codec := relayCodec }, fun _ _ => true, .linux, .new, ⟨1, 0⟩⟩

theorem installed_package_stays_relay : letI := Version.numericOrder
    let s := [.recordInstall 0 "relay" (.new 1 0 0), .recordInstall 1 "relay" (.new 2 0 0)].foldl
      (step relayCodec (.new "/srv")) (blank.step relayCodec (.new "/srv") (.install ⟨#[0]⟩ []))
    (s.rollback (.new "/srv") relayChecks 2 "relay").1 = .ok (.new 1 0 0) := by
  let _ := Version.numericOrder
  have hopen : PackageReader.openArchive relayCodec ⟨#[0]⟩ = .ok (stubReader "relay" ⟨#[0]⟩) := rfl
  have horderly : Orderly relayCodec ⟨#[0]⟩ := by
    intro reader hreader
    obtain rfl := Except.ok.inj (hopen.symm.trans hreader)
    exact ⟨⟨by decide, by decide⟩, by decide⟩
  have hspares : Fold.Along (step relayCodec (.new "/srv")) (Spares relayCodec (.new "/srv") "relay" (.new 1 0 0))
      (blank.step relayCodec (.new "/srv") (.install ⟨#[0]⟩ []))
      [.recordInstall 0 "relay" (.new 1 0 0), .recordInstall 1 "relay" (.new 2 0 0)] := by
    intro before l hprefix
    have hmem : l ∈ [LoaderStep.recordInstall 0 "relay" (.new 1 0 0), .recordInstall 1 "relay" (.new 2 0 0)] :=
      hprefix.subset (List.mem_append_right _ (List.mem_singleton_self l))
    simp only [List.mem_cons, List.not_mem_nil, or_false] at hmem
    rcases hmem with rfl | rfl <;> trivial
  have hunpacks : Unpacks relayCodec ⟨#[0]⟩ (stubReader "relay" ⟨#[0]⟩) (.new "/srv") ⟨.new, stubDisk.withFaults []⟩ := by
    refine ⟨⟨_, rfl, by decide⟩, by decide, fun f hf => ?_⟩
    exact absurd hf List.not_mem_nil
  have hok : ∃ outcome, (blank.install relayCodec (.new "/srv") ⟨#[0]⟩ []).1 = .ok outcome := by
    obtain ⟨package, hpackage⟩ := (installed_iff hopen (.new "/srv") ⟨.new, stubDisk.withFaults []⟩).mpr ⟨hunpacks, by decide⟩
    exact ⟨_, hpackage⟩
  obtain ⟨-, -, -, hback⟩ := installed_package_stays horderly hopen hok hspares
  have hnone : ∀ index, detectConflicts relayChecks.reqMatches [stubManifest "relay" []] index
      relayChecks.requiredApiVersion = [] := fun index => rfl
  exact congrArg Prod.fst ((hback relayChecks 2 rfl rfl).trans (if_pos ⟨hnone _, rfl⟩))

end Loader
end Nyarix
