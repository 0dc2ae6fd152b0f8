import Nyarix.Loader.Installer

/-! Where an installation makes directories and writes files. -/

namespace Nyarix

def membersOf (codec : Codec) (reader : PackageReader) : List (String × ByteArray) :=
  (reader.entries codec).toOption.getD []

def installCalls (codec : Codec) (data : ByteArray) (reader : PackageReader) (installRoot : UnixPath) :
    List Disk.Call :=
  let packageDir := packageDir installRoot reader.manifest.package
  packageCalls packageDir data ++ unpackCalls (packageDir.join (.new "payload")) (membersOf codec reader)

/-- The payload members that unpacking comes to: those before the first with a `..`, and none
after one that names no file. -/
def reached : List (String × ByteArray) → List (UnixPath × ByteArray)
  | [] => []
  | (path, contents) :: rest =>
    match relativePath path with
    | none => reached rest
    | some relative =>
      if relative.hasParentDir then []
      else (relative, contents) :: if relative.named then reached rest else []

variable {codec : Codec} {data : ByteArray} {reader : PackageReader} {installRoot : UnixPath} {s : Store}

theorem installPackage_disk (h : PackageReader.openArchive codec data = .ok reader) (installRoot : UnixPath)
    (s : Store) : (installPackage codec data installRoot s).2.disk =
      (s.disk.perform (installCalls codec data reader installRoot)).2 := by
  rw [installPackage_eq h, installCalls]
  dsimp only
  rw [Disk.perform_append, after]
  rcases s.disk.perform _ with ⟨_ | _, disk⟩
  · rfl
  · dsimp only
    rw [membersOf]
    cases reader.entries codec with
    | error e => rfl
    | ok entries =>
      dsimp only [after, Except.toOption, Option.getD_some]
      rcases disk.perform _ with ⟨_ | _, disk'⟩
      · rfl
      · cases refusal entries <;> rfl

theorem takeWhile_place (destination : UnixPath) (contents : ByteArray) (rest : List Disk.Call) :
    (place destination contents ++ rest).takeWhile Disk.Call.sound =
      destination.parent.toList.map .createDirAll ++
        if destination.named then .write destination contents :: rest.takeWhile Disk.Call.sound else [] := by
  have hdirs : ∀ c ∈ destination.parent.toList.map Disk.Call.createDirAll, c.sound := by
    simp [Disk.Call.sound]
  rw [place, List.append_assoc, List.takeWhile_append_of_pos hdirs, List.singleton_append, List.takeWhile_cons]
  rfl

theorem mem_takeWhile_place {destination : UnixPath} {contents : ByteArray} {c : Disk.Call} :
    c ∈ (place destination contents).takeWhile Disk.Call.sound ↔
      (∃ q ∈ destination.parent, c = .createDirAll q) ∨ (destination.named ∧ c = .write destination contents) := by
  have h := takeWhile_place destination contents []
  rw [List.append_nil] at h
  rw [h, List.mem_append]
  refine or_congr ?_ ?_
  · rw [List.mem_map]
    exact exists_congr fun q => and_congr Option.mem_toList eq_comm
  · by_cases hn : destination.named <;> simp [hn]

theorem takeWhile_unpackCalls (payloadDir : UnixPath) (entries : List (String × ByteArray)) :
    (unpackCalls payloadDir entries).takeWhile Disk.Call.sound =
      (reached entries).flatMap fun m => (place (payloadDir.join m.1) m.2).takeWhile Disk.Call.sound := by
  induction entries with
  | nil => rfl
  | cons entry rest ih =>
    obtain ⟨path, contents⟩ := entry
    rw [unpackCalls, reached]
    cases relativePath path with
    | none => exact ih
    | some relative =>
      by_cases hdots : relative.hasParentDir
      · simp [hdots]
      · have hplace := takeWhile_place (payloadDir.join relative) contents []
        rw [List.append_nil] at hplace
        by_cases hn : relative.named
        · simp [hdots, hn, takeWhile_place, hplace, UnixPath.named_join, ih]
        · simp [hdots, hn, takeWhile_place, hplace, UnixPath.named_join]

theorem reached_noParentDir {entries : List (String × ByteArray)} {m : UnixPath × ByteArray} (h : m ∈ reached entries) :
    m.1.hasParentDir = false := by
  induction entries with
  | nil => exact absurd h List.not_mem_nil
  | cons entry rest ih =>
    obtain ⟨path, contents⟩ := entry
    rw [reached] at h
    split at h
    · exact ih h
    · split at h
      · exact absurd h List.not_mem_nil
      · next hdots =>
        rcases List.mem_cons.mp h with rfl | h
        · simpa using hdots
        · split at h
          · exact ih h
          · exact absurd h List.not_mem_nil

theorem archive_step (p : UnixPath) (l : Location) :
    (p.join (.new "package.nyp")).locate l = p.locate l ++ ["package.nyp".toList] :=
  (UnixPath.join_name (by decide) rfl p l).1

theorem payload_step (p : UnixPath) (l : Location) :
    (p.join (.new "payload")).locate l = p.locate l ++ ["payload".toList] ∧
      (p.join (.new "payload")).visited l = p.visited l ++ [p.locate l ++ ["payload".toList]] :=
  UnixPath.join_name (by decide) rfl p l

theorem takeWhile_packageCalls (packageDir : UnixPath) (data : ByteArray) (rest : List Disk.Call) :
    (packageCalls packageDir data ++ rest).takeWhile Disk.Call.sound =
      packageCalls packageDir data ++ rest.takeWhile Disk.Call.sound := by
  refine List.takeWhile_append_of_pos fun c hc => ?_
  rcases List.mem_cons.mp hc with rfl | hc
  · rfl
  · obtain rfl := List.mem_singleton.mp hc
    exact (UnixPath.named_join _ _).trans (by decide)

def written (d d' : Disk) : List (Location × ByteArray) := d'.writes.drop d.writes.length

/-- What an installation adds lies under the root, and what it writes after the archive lies
under the payload directory. -/
structure Contained (root payload : Location) (d d' : Disk) : Prop where
  directories : ∀ l ∈ d'.directories, l ∈ d.directories ∨ root <+: l
  files : ∀ w ∈ written d d', Location.Below root w.1
  payload : ∀ w ∈ (written d d').tail, Location.Below payload w.1

/-- The name leads to a place under the root, by directories that exist already or lie under
the root; so do the members that are absolute paths, and those of them that name a file
lead under the payload directory. -/
structure Confined (installRoot : UnixPath) (info : PackageInfo) (entries : List (String × ByteArray))
    (d : Disk) : Prop where
  ready : ∀ l ∈ (packageDir installRoot info).visited d.cwd, l ∈ d.directories ∨ installRoot.locate d.cwd <+: l
  inside : installRoot.locate d.cwd <+: (packageDir installRoot info).locate d.cwd
  members : ∀ m ∈ reached entries, m.1.isAbsolute →
    (∀ q ∈ m.1.parent, ∀ l ∈ q.visited d.cwd, l ∈ d.directories ∨ installRoot.locate d.cwd <+: l) ∧
      (m.1.named → Location.Below (((packageDir installRoot info).join (.new "payload")).locate d.cwd) (m.1.locate d.cwd))

theorem relative_member (payloadDir : UnixPath) (cwd : Location) {m : UnixPath × ByteArray}
    (hm : m.1.hasParentDir = false) (habs : ¬ m.1.isAbsolute) :
    (∀ l ∈ (payloadDir.join m.1).visited cwd, l ∈ payloadDir.visited cwd ∨ payloadDir.locate cwd <+: l) ∧
      (m.1.named → Location.Below (payloadDir.locate cwd) ((payloadDir.join m.1).locate cwd)) := by
  obtain ⟨cs, hcs, hroute⟩ := UnixPath.route_normal hm
  rw [if_neg habs, List.nil_append] at hroute
  obtain ⟨names, hlen, hend, hpassed⟩ := UnixPath.follow_normal (l := payloadDir.locate cwd) hcs
  constructor
  · intro l hl
    rw [UnixPath.visited_join habs, UnixPath.visited, UnixPath.visited, hroute] at hl
    exact (List.mem_append.mp hl).imp_right fun hl => (hpassed l hl).1
  · intro hnamed
    have hloc : (payloadDir.join m.1).locate cwd = payloadDir.locate cwd ++ names :=
      (UnixPath.locate_join habs).trans ((congrArg (UnixPath.follow _) hroute).trans hend)
    rw [hloc]
    refine ⟨List.prefix_append _ _, fun h => ?_⟩
    have hnil : names = [] := List.append_right_eq_self.mp h.symm
    have hcsnil : cs = [] := List.eq_nil_of_length_eq_zero (by rw [← hlen, hnil, List.length_nil])
    exact UnixPath.route_ne_nil_of_named hnamed (hroute.trans hcsnil)

variable {info : PackageInfo} {entries : List (String × ByteArray)} {d : Disk}

theorem Confined.member_calls (h : Confined installRoot info entries d) {c : Disk.Call}
    (hc : c ∈ (unpackCalls ((packageDir installRoot info).join (.new "payload")) entries).takeWhile Disk.Call.sound) :
    (∀ l ∈ c.makes d.cwd, l ∈ d.directories ∨ installRoot.locate d.cwd <+: l) ∧
      ∀ w ∈ c.leaves d.cwd,
        Location.Below (((packageDir installRoot info).join (.new "payload")).locate d.cwd) w.1 := by
  set payloadDir := (packageDir installRoot info).join (.new "payload") with hpayload
  obtain ⟨hloc, hvis⟩ := payload_step (packageDir installRoot info) d.cwd
  rw [← hpayload] at hloc hvis
  have hunder : installRoot.locate d.cwd <+: payloadDir.locate d.cwd := by
    rw [hloc]
    exact h.inside.trans (List.prefix_append _ _)
  rw [takeWhile_unpackCalls] at hc
  obtain ⟨m, hm, hc⟩ := List.mem_flatMap.mp hc
  -- where the member's parents and the member itself may be
  have hmember : (∀ q ∈ (payloadDir.join m.1).parent, ∀ l ∈ q.visited d.cwd,
      l ∈ d.directories ∨ installRoot.locate d.cwd <+: l) ∧
      (m.1.named → Location.Below (payloadDir.locate d.cwd) ((payloadDir.join m.1).locate d.cwd)) := by
    by_cases habs : m.1.isAbsolute
    · rw [UnixPath.join_of_isAbsolute habs]
      exact h.members m hm habs
    · obtain ⟨hdirs, hfile⟩ := relative_member payloadDir d.cwd (reached_noParentDir hm) habs
      refine ⟨fun q hq l hl => ?_, hfile⟩
      rcases hdirs l (UnixPath.visited_parent_subset hq hl) with hl | hl
      · rw [hvis] at hl
        rcases List.mem_append.mp hl with hl | hl
        · exact h.ready l hl
        · rw [List.mem_singleton.mp hl, ← hloc]
          exact .inr hunder
      · exact .inr (hunder.trans hl)
  rcases mem_takeWhile_place.mp hc with ⟨q, hq, rfl⟩ | ⟨hn, rfl⟩
  · exact ⟨hmember.1 q hq, List.forall_mem_nil _⟩
  · rw [UnixPath.named_join] at hn
    exact ⟨List.forall_mem_nil _, List.forall_mem_singleton.mpr (hmember.2 hn)⟩

section Install
variable (h : PackageReader.openArchive codec data = .ok reader) (installRoot : UnixPath) (index : ModuleIndex)
include h

theorem installPackage_written (d : Disk) (faults : List (Option Fault)) :
    written d (installPackage codec data installRoot ⟨index, d.withFaults faults⟩).2.disk =
      Disk.landed d.cwd faults (installCalls codec data reader installRoot) := by
  rw [written, installPackage_disk h, Disk.perform_writes]
  exact List.drop_left

theorem Confined.contained {d : Disk} (hconf : Confined installRoot reader.manifest.package (membersOf codec reader) d)
    (faults : List (Option Fault)) : Contained (installRoot.locate d.cwd)
      (((packageDir installRoot reader.manifest.package).join (.new "payload")).locate d.cwd) d
      (installPackage codec data installRoot ⟨index, d.withFaults faults⟩).2.disk := by
  have hcalls := takeWhile_packageCalls (packageDir installRoot reader.manifest.package) data
    (unpackCalls ((packageDir installRoot reader.manifest.package).join (.new "payload")) (membersOf codec reader))
  have hpayload : installRoot.locate d.cwd <+:
      ((packageDir installRoot reader.manifest.package).join (.new "payload")).locate d.cwd := by
    rw [(payload_step _ d.cwd).1]
    exact hconf.inside.trans (List.prefix_append _ _)
  -- the directories made, all the files, and the files after the archive
  refine ⟨fun l hl => ?_, fun w hw => ?_, fun w hw => ?_⟩
  · rw [installPackage_disk h] at hl
    rcases Disk.perform_made hl with hl | ⟨c, hc, hl⟩
    · exact .inl hl
    · rw [installCalls, hcalls] at hc
      rcases List.mem_append.mp hc with hc | hc
      · rcases List.mem_cons.mp hc with rfl | hc
        · exact hconf.ready l hl
        · rw [List.mem_singleton.mp hc] at hl
          exact absurd hl List.not_mem_nil
      · exact (hconf.member_calls hc).1 l hl
  · rw [installPackage_written h] at hw
    obtain ⟨c, hc, v, hv, hvw⟩ := Disk.landed_location hw
    rw [installCalls, hcalls] at hc
    rcases List.mem_append.mp hc with hc | hc
    · rcases List.mem_cons.mp hc with rfl | hc
      · exact absurd hv List.not_mem_nil
      · rw [List.mem_singleton.mp hc] at hv
        rw [← hvw, List.mem_singleton.mp hv, archive_step]
        exact .of_le hconf.inside (Location.below_concat _ _)
    · rw [← hvw]
      exact .of_le hpayload ((hconf.member_calls hc).2 v hv)
  · rw [installPackage_written h] at hw
    obtain ⟨faults', hw⟩ := Disk.landed_tail hw
    obtain ⟨c, hc, v, hv, hvw⟩ := Disk.landed_location hw
    rw [← hvw]
    exact (hconf.member_calls hc).2 v hv

theorem Contained.confined {d : Disk} (hnone : Contained (installRoot.locate d.cwd)
    (((packageDir installRoot reader.manifest.package).join (.new "payload")).locate d.cwd) d
    (installPackage codec data installRoot ⟨index, d.withFaults []⟩).2.disk) :
    Confined installRoot reader.manifest.package (membersOf codec reader) d := by
  set calls := unpackCalls ((packageDir installRoot reader.manifest.package).join (.new "payload"))
    (membersOf codec reader) with hunpack
  have hcalls : (installCalls codec data reader installRoot).takeWhile Disk.Call.sound =
      packageCalls (packageDir installRoot reader.manifest.package) data ++ calls.takeWhile Disk.Call.sound :=
    takeWhile_packageCalls _ _ _
  have hmade : ∀ c ∈ packageCalls (packageDir installRoot reader.manifest.package) data ++
      calls.takeWhile Disk.Call.sound, ∀ l ∈ c.makes d.cwd, l ∈ d.directories ∨ installRoot.locate d.cwd <+: l := by
    intro c hc l hl
    rw [← hcalls] at hc
    refine hnone.directories l ?_
    rw [installPackage_disk h]
    apply Disk.perform_directories rfl hc
    exact hl
  have hleft : written d (installPackage codec data installRoot ⟨index, d.withFaults []⟩).2.disk =
      (((packageDir installRoot reader.manifest.package).join (.new "package.nyp")).locate d.cwd, data) ::
        (calls.takeWhile Disk.Call.sound).flatMap (Disk.Call.leaves d.cwd) := by
    rw [installPackage_written h, Disk.landed_nil, hcalls, List.flatMap_append]
    rfl
  have hmember : ∀ m ∈ reached (membersOf codec reader), m.1.isAbsolute →
      ∀ c ∈ (place m.1 m.2).takeWhile Disk.Call.sound, c ∈ calls.takeWhile Disk.Call.sound := by
    intro m hm habs c hc
    rw [hunpack, takeWhile_unpackCalls]
    refine List.mem_flatMap.mpr ⟨m, hm, ?_⟩
    rwa [UnixPath.join_of_isAbsolute habs]
  refine ⟨hmade (.createDirAll _) (List.mem_append_left _ List.mem_cons_self), ?_,
    fun m hm habs => ⟨fun q hq => ?_, fun hn => ?_⟩⟩
  · have harchive := hnone.files _ (hleft ▸ List.mem_cons_self)
    rw [archive_step] at harchive
    exact (List.prefix_concat_iff.mp harchive.1).resolve_left harchive.2
  · have hc := hmember m hm habs _ (mem_takeWhile_place.mpr (.inl ⟨q, hq, rfl⟩))
    exact hmade (.createDirAll q) (List.mem_append_right _ hc)
  · have hc := hmember m hm habs _ (mem_takeWhile_place.mpr (.inr ⟨hn, rfl⟩))
    refine hnone.payload (m.1.locate d.cwd, m.2) ?_
    rw [hleft, List.tail_cons]
    exact List.mem_flatMap.mpr ⟨.write m.1 m.2, hc, List.mem_singleton_self _⟩

end Install

/-- An installation stays under its root, and its payload under the payload directory,
however its file-system calls end, exactly when the package is confined. -/
theorem install_package_contained_iff {codec : Codec} {data : ByteArray} {reader : PackageReader}
    (h : PackageReader.openArchive codec data = .ok reader) (installRoot : UnixPath) (index : ModuleIndex) (d : Disk) :
    (∀ faults, Contained (installRoot.locate d.cwd)
        (((packageDir installRoot reader.manifest.package).join (.new "payload")).locate d.cwd) d
        (installPackage codec data installRoot ⟨index, d.withFaults faults⟩).2.disk) ↔
      Confined installRoot reader.manifest.package (membersOf codec reader) d :=
  ⟨fun hall => (hall []).confined h installRoot index, fun hconf faults => hconf.contained h installRoot index faults⟩

def stubDisk : Disk where
  cwd := []
  directories := {[], ["srv".toList]}
  writes := []
  faults := []
  cwd_exists l h := by simp [List.prefix_nil.mp h]

theorem install_package_contained_iff_relay : ∃ reader,
    PackageReader.openArchive (stubCodec "relay" [("payload/a/b.wasm", ⟨#[1]⟩)]) ⟨#[0]⟩ = .ok reader ∧
      ∀ faults, Contained ((UnixPath.new "/srv").locate stubDisk.cwd)
        (((packageDir (.new "/srv") reader.manifest.package).join (.new "payload")).locate stubDisk.cwd) stubDisk
        (installPackage (stubCodec "relay" [("payload/a/b.wasm", ⟨#[1]⟩)]) ⟨#[0]⟩ (.new "/srv")
          ⟨.new, stubDisk.withFaults faults⟩).2.disk := by
  have hopen : PackageReader.openArchive (stubCodec "relay" [("payload/a/b.wasm", ⟨#[1]⟩)]) ⟨#[0]⟩ =
      .ok (stubReader "relay" ⟨#[0]⟩) := rfl
  have hrel : ∀ m ∈ reached (membersOf (stubCodec "relay" [("payload/a/b.wasm", ⟨#[1]⟩)])
      (stubReader "relay" ⟨#[0]⟩)), ¬ m.1.isAbsolute := by decide
  refine ⟨_, hopen, (install_package_contained_iff hopen (.new "/srv") .new stubDisk).mpr ⟨?_, ?_, ?_⟩⟩
  · decide
  · decide
  · exact fun m hm habs => absurd habs (hrel m hm)

theorem absolute_member_escapes : ∃ reader,
    PackageReader.openArchive (stubCodec "relay" [("payload//etc/passwd", ⟨#[1]⟩)]) ⟨#[0]⟩ = .ok reader ∧
      ¬ Contained ["srv".toList] ["srv".toList, "relay".toList, "1.0.0".toList, "payload".toList] stubDisk
        (installPackage (stubCodec "relay" [("payload//etc/passwd", ⟨#[1]⟩)]) ⟨#[0]⟩ (.new "/srv")
          ⟨.new, stubDisk⟩).2.disk := by
  have hopen : PackageReader.openArchive (stubCodec "relay" [("payload//etc/passwd", ⟨#[1]⟩)]) ⟨#[0]⟩ =
      .ok (stubReader "relay" ⟨#[0]⟩) := rfl
  have hwritten := installPackage_written hopen (.new "/srv") .new stubDisk []
  have hfaults : stubDisk.withFaults [] = stubDisk := rfl
  rw [hfaults] at hwritten
  refine ⟨_, hopen, fun hcon => ?_⟩
  have hfile := hcon.files (["etc".toList, "passwd".toList], ⟨#[1]⟩)
    (hwritten ▸ List.mem_cons_of_mem _ List.mem_cons_self)
  exact absurd hfile.1 (by decide)

end Nyarix
