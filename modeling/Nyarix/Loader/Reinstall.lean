import Nyarix.Loader.Containment

/-! What an installation changes when it does not install. -/

namespace Nyarix

structure Unchanged (root : Location) (s s' : Store) : Prop where
  index : s'.index = s.index
  files : ∀ l, root <+: l → s'.disk.file l = s.disk.file l

/-- The members are read, none of those in the payload has a `..`, and no file-system call
fails. -/
structure Unpacks (codec : Codec) (data : ByteArray) (reader : PackageReader) (installRoot : UnixPath) (s : Store) :
    Prop where
  entries : ∃ entries, reader.entries codec = .ok entries ∧
    ∀ e ∈ entries, ∀ relative ∈ relativePath e.1, relative.hasParentDir = false
  calls : Disk.Completes s.disk.faults (installCalls codec data reader installRoot)

/-- A file of an archive: the directory that is made for it, where it goes, and its bytes. -/
structure Shipped where
  directory : Option UnixPath
  destination : UnixPath
  contents : ByteArray

/-- The files that an archive brings, in their order: its own bytes, and the payload members that are come to. -/
def shipped (codec : Codec) (data : ByteArray) (reader : PackageReader) (installRoot : UnixPath) : List Shipped :=
  let packageDir := packageDir installRoot reader.manifest.package
  ⟨some packageDir, packageDir.join (.new "package.nyp"), data⟩ :: (reached (membersOf codec reader)).map fun member =>
    let destination := (packageDir.join (.new "payload")).join member.1
    ⟨destination.parent, destination, member.2⟩

/-- The contents that files get: all of its bytes each, up to the first whose directory cannot be made or that
cannot be opened, or whose bytes break off. -/
def stored (cwd : Location) : List (Option Fault) → List Shipped → List (Location × ByteArray)
  | _, [] => []
  | faults, ⟨directory, destination, contents⟩ :: rest =>
    let (making, writing) := faults.splitAt directory.toList.length
    if making.any Option.isSome ∨ ¬ destination.named then [] else
      match writing with
      | some fault :: _ =>
        if fault.after = 0 then [] else [(destination.locate cwd, contents.extract 0 (fault.after - 1))]
      | writing => (destination.locate cwd, contents) :: stored cwd writing.tail rest

/-- Each file under the root holds what it gets last from the files of the archive. -/
def SameFiles (codec : Codec) (data : ByteArray) (reader : PackageReader) (installRoot : UnixPath) (s : Store) : Prop :=
  ∀ l, installRoot.locate s.disk.cwd <+: l →
    ∀ contents ∈ Disk.lastWrite (stored s.disk.cwd s.disk.faults (shipped codec data reader installRoot)) l,
      s.disk.file l = some contents

theorem landed_shipped (cwd : Location) (faults : List (Option Fault)) (directory : Option UnixPath)
    (destination : UnixPath) (contents : ByteArray) (calls : List Disk.Call) {rest : List Shipped}
    (hrest : destination.named → ∀ faults, Disk.landed cwd faults calls = stored cwd faults rest) :
    Disk.landed cwd faults (directory.toList.map .createDirAll ++ .write destination contents :: calls) =
      stored cwd faults (⟨directory, destination, contents⟩ :: rest) := by
  have hwrite : ∀ faults, Disk.landed cwd faults (.write destination contents :: calls) =
      stored cwd faults (⟨none, destination, contents⟩ :: rest) := by
    intro faults
    by_cases hnamed : destination.named
    · rcases faults with _ | ⟨_ | fault, faults⟩ <;>
        simp [Disk.landed, stored, Disk.Call.sound, Disk.Call.leaves, Disk.Call.leavesAfter, hnamed, hrest]
    · rcases faults with _ | ⟨_ | fault, faults⟩ <;> simp [Disk.landed, stored, Disk.Call.sound, hnamed]
  cases directory with
  | none => exact hwrite faults
  | some directory =>
    -- the first fault is the directory's, and the others are the file's
    rcases faults with _ | ⟨_ | fault, faults⟩
    · exact (hwrite []).trans (by simp [stored])
    · exact (hwrite faults).trans (by simp [stored])
    · simp [Disk.landed, stored, Disk.Call.sound, Disk.Call.leavesAfter]

theorem landed_unpackCalls (cwd : Location) (payloadDir : UnixPath) (entries : List (String × ByteArray))
    (faults : List (Option Fault)) : Disk.landed cwd faults (unpackCalls payloadDir entries) =
      stored cwd faults ((reached entries).map fun member =>
        ⟨(payloadDir.join member.1).parent, payloadDir.join member.1, member.2⟩) := by
  induction entries generalizing faults with
  | nil => rcases faults with _ | ⟨_ | fault, faults⟩ <;> rfl
  | cons entry rest ih =>
    obtain ⟨path, contents⟩ := entry
    rw [unpackCalls, reached]
    cases relativePath path with
    | none => exact ih faults
    | some relative =>
      dsimp only
      split_ifs with hdots hnamed
      · rcases faults with _ | ⟨_ | fault, faults⟩ <;> rfl
      · rw [place, List.append_assoc]
        exact landed_shipped cwd faults _ _ contents _ fun _ => ih
      · rw [place, List.append_assoc]
        exact landed_shipped cwd faults _ _ contents _ fun hjoined => absurd (UnixPath.named_join _ _ ▸ hjoined) hnamed

theorem landed_installCalls (codec : Codec) (data : ByteArray) (reader : PackageReader) (installRoot : UnixPath)
    (cwd : Location) (faults : List (Option Fault)) :
    Disk.landed cwd faults (installCalls codec data reader installRoot) =
      stored cwd faults (shipped codec data reader installRoot) :=
  landed_shipped cwd faults (some _) _ data _ fun _ => landed_unpackCalls cwd _ _

theorem refusal_ok {entries : List (String × ByteArray)} : refusal entries = .ok () ↔
    ∀ e ∈ entries, ∀ relative ∈ relativePath e.1, relative.hasParentDir = false := by
  induction entries with
  | nil => simp [refusal]
  | cons entry rest ih =>
    obtain ⟨path, contents⟩ := entry
    rw [refusal, List.forall_mem_cons]
    cases hrel : relativePath path with
    | none => simpa [hrel] using ih
    | some relative =>
      by_cases hdots : relative.hasParentDir
      · simp [hdots]
      · simpa [hdots] using ih

variable {codec : Codec} {data : ByteArray} {reader : PackageReader} {installRoot : UnixPath} {s : Store}

theorem installPackage_cases (h : PackageReader.openArchive codec data = .ok reader) (installRoot : UnixPath)
    (s : Store) :
    (∃ e disk, installPackage codec data installRoot s = (.error e, { s with disk }) ∧
      ¬ Unpacks codec data reader installRoot s) ∨
    ∃ disk path, installPackage codec data installRoot s =
        register ⟨path, reader.manifest.package.name, reader.manifest.package.version⟩ { s with disk } ∧
      Unpacks codec data reader installRoot s := by
  have hcalls : Unpacks codec data reader installRoot s →
      (s.disk.perform (installCalls codec data reader installRoot)).1 = .ok () :=
    fun hu => (Disk.perform_ok _ _).mpr hu.calls
  rw [installCalls, membersOf] at hcalls
  rw [installPackage_eq h]
  dsimp only at hcalls ⊢
  rw [Disk.perform_append] at hcalls
  rw [after]
  rcases hpackage : s.disk.perform _ with ⟨⟨path, source⟩ | _, disk⟩ <;> simp only [hpackage] at hcalls
  · -- the directory or the archive cannot be written
    exact .inl ⟨_, disk, rfl, fun hu => by cases hcalls hu⟩
  · cases hentries : reader.entries codec with
    | error e =>
      refine .inl ⟨e, disk, rfl, ?_⟩
      rintro ⟨⟨_, hread, _⟩, _⟩
      cases hentries.symm.trans hread
    | ok entries =>
      simp only [hentries, Except.toOption, Option.getD_some] at hcalls
      dsimp only [after]
      rcases hunpack : disk.perform _ with ⟨⟨path, source⟩ | _, disk'⟩ <;> rw [hunpack] at hcalls
      · -- some member cannot be written
        exact .inl ⟨_, disk', rfl, fun hu => by cases hcalls hu⟩
      · cases hrefusal : refusal entries with
        | error e =>
          refine .inl ⟨e, disk', rfl, ?_⟩
          rintro ⟨⟨entries', hread, hdots⟩, _⟩
          obtain rfl := Except.ok.inj (hentries.symm.trans hread)
          rw [refusal_ok.mpr hdots] at hrefusal
          cases hrefusal
        | ok _ =>
          refine .inr ⟨disk', _, rfl, ⟨entries, hentries, refusal_ok.mp hrefusal⟩, ?_⟩
          rw [← Disk.perform_ok, installCalls, membersOf, Disk.perform_append, hpackage, hentries]
          exact congrArg Prod.fst hunpack

/-- The archive opens and installs: it unpacks, and its name and version are new. Or it opens
and leaves the files as they are. Or it does not open. -/
def InstallsOrKeeps (codec : Codec) (data : ByteArray) (installRoot : UnixPath) (s : Store) : Prop :=
  ∀ reader, PackageReader.openArchive codec data = .ok reader →
    (Unpacks codec data reader installRoot s ∧
      ¬ s.index.Has reader.manifest.package.name reader.manifest.package.version) ∨
    SameFiles codec data reader installRoot s

theorem unchanged_files_iff (h : PackageReader.openArchive codec data = .ok reader) (installRoot : UnixPath) (s : Store) :
    (∀ l, installRoot.locate s.disk.cwd <+: l →
      (installPackage codec data installRoot s).2.disk.file l = s.disk.file l) ↔
      SameFiles codec data reader installRoot s := by
  refine forall₂_congr fun l _ => ?_
  rw [installPackage_disk h, ← landed_installCalls]
  exact Disk.perform_file _ _ l

theorem installed_iff (h : PackageReader.openArchive codec data = .ok reader) (installRoot : UnixPath) (s : Store) :
    (∃ package, (installPackage codec data installRoot s).1 = .ok (.installed package)) ↔
      Unpacks codec data reader installRoot s ∧
        ¬ s.index.Has reader.manifest.package.name reader.manifest.package.version := by
  rcases installPackage_cases h installRoot s with ⟨e, disk, heq, hu⟩ | ⟨disk, path, heq, hu⟩
  · rw [heq]
    exact ⟨fun ⟨_, hcon⟩ => (by cases hcon), fun hcon => absurd hcon.1 hu⟩
  · have hdup := ModuleIndex.insert_duplicate s.index
      ⟨path, reader.manifest.package.name, reader.manifest.package.version⟩
    rw [heq, register]
    refine Iff.trans ?_ (and_iff_right hu).symm
    rw [← hdup]
    dsimp only
    cases (s.index.insert _).1 <;> simp

theorem index_unchanged (h : PackageReader.openArchive codec data = .ok reader) {installRoot : UnixPath} {s : Store}
    (hno : ¬ ∃ package, (installPackage codec data installRoot s).1 = .ok (.installed package)) :
    (installPackage codec data installRoot s).2.index = s.index := by
  rw [installed_iff h] at hno
  rcases installPackage_cases h installRoot s with ⟨e, disk, heq, hu⟩ | ⟨disk, path, heq, hu⟩
  · rw [heq]
  · have hhas := not_not.mp fun hnot => hno ⟨hu, hnot⟩
    rw [heq, register]
    exact ModuleIndex.insert_of_has hhas

/-- An installation that reports a duplicate or an error leaves the index and the files under
the root as they were exactly when the archive does not open, or it installs after all, or
what it brings is there already. -/
theorem install_package_unchanged_iff (codec : Codec) (data : ByteArray) (installRoot : UnixPath) (s : Store) :
    ((∃ duplicate, (installPackage codec data installRoot s).1 = .ok (.alreadyInstalled duplicate)) ∨
        (∃ e, (installPackage codec data installRoot s).1 = .error e) →
      Unchanged (installRoot.locate s.disk.cwd) s (installPackage codec data installRoot s).2) ↔
      InstallsOrKeeps codec data installRoot s := by
  have houtcome : ((∃ duplicate, (installPackage codec data installRoot s).1 = .ok (.alreadyInstalled duplicate)) ∨
      (∃ e, (installPackage codec data installRoot s).1 = .error e)) ↔
      ¬ ∃ package, (installPackage codec data installRoot s).1 = .ok (.installed package) := by
    rcases (installPackage codec data installRoot s).1 with e | (package | duplicate) <;> simp
  rw [houtcome]
  cases hopen : PackageReader.openArchive codec data with
  | error e =>
    have heq : installPackage codec data installRoot s = (.error e, s) := by
      rw [installPackage, bind_apply, lift_apply, hopen]
    rw [heq]
    exact ⟨fun _ reader hr => (by cases hopen.symm.trans hr), fun _ _ => ⟨rfl, fun _ _ => rfl⟩⟩
  | ok reader =>
    rw [installed_iff hopen]
    constructor
    · rintro hkeep reader' hr
      obtain rfl := Except.ok.inj (hopen.symm.trans hr)
      refine or_iff_not_imp_left.mpr fun hno => ?_
      exact (unchanged_files_iff hopen installRoot s).mp (hkeep hno).files
    · intro hcases hno
      have hsame := (hcases reader hopen).resolve_left hno
      refine ⟨index_unchanged hopen fun hin => hno ((installed_iff hopen installRoot s).mp hin), ?_⟩
      exact (unchanged_files_iff hopen installRoot s).mpr hsame

def relayArchive : Location := ["srv".toList, "relay".toList, "1.0.0".toList, "package.nyp".toList]

def relayStore : Store where
  index := (ModuleIndex.new.insert ⟨.new "/srv/relay/1.0.0/package.nyp", "relay", .new 1 0 0⟩).2
  disk := { stubDisk with writes := [(relayArchive, ⟨#[0]⟩)] }

theorem install_package_unchanged_iff_again :
    Unchanged ["srv".toList] relayStore (installPackage (stubCodec "relay" []) ⟨#[0]⟩ (.new "/srv") relayStore).2 := by
  refine (install_package_unchanged_iff (stubCodec "relay" []) ⟨#[0]⟩ (.new "/srv") relayStore).mpr ?_ (.inl ⟨_, rfl⟩)
  intro reader hreader
  obtain rfl : stubReader "relay" ⟨#[0]⟩ = reader := Except.ok.inj hreader
  have hstored : stored [] [] (shipped (stubCodec "relay" []) ⟨#[0]⟩ (stubReader "relay" ⟨#[0]⟩) (.new "/srv")) =
      [(relayArchive, ⟨#[0]⟩)] := rfl
  refine .inr fun l _ contents hcontents => ?_
  exact (congrArg (Disk.lastWrite · l) hstored).symm.trans hcontents

theorem reinstall_replaces_archive :
    (∃ duplicate, (installPackage (stubCodec "relay" []) ⟨#[7]⟩ (.new "/srv") relayStore).1 =
        .ok (.alreadyInstalled duplicate)) ∧
      relayStore.disk.file relayArchive = some ⟨#[0]⟩ ∧
      (installPackage (stubCodec "relay" []) ⟨#[7]⟩ (.new "/srv") relayStore).2.disk.file relayArchive = some ⟨#[7]⟩ ∧
      ¬ Unchanged ["srv".toList] relayStore (installPackage (stubCodec "relay" []) ⟨#[7]⟩ (.new "/srv") relayStore).2 := by
  have hbefore : relayStore.disk.file relayArchive = some ⟨#[0]⟩ := rfl
  have hafter : (installPackage (stubCodec "relay" []) ⟨#[7]⟩ (.new "/srv") relayStore).2.disk.file relayArchive =
      some ⟨#[7]⟩ := rfl
  refine ⟨⟨_, rfl⟩, hbefore, hafter, fun hcon => ?_⟩
  have hsame := hcon.files relayArchive (by decide)
  rw [hbefore, hafter] at hsame
  exact absurd hsame (by simp)

end Nyarix
