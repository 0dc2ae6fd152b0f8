import Nyarix.Package.Trust

/-! Building a package in memory, signing it, and what the reader makes of the result. The
encoders of the archive and the signing of bytes are parameters, like their inverses. -/

namespace Nyarix

/-- The writers of the formats that an archive is made of. -/
structure Encoder where
  /-- A `tar` stream of those files, in order. -/
  tar : List Entry → Except IoError ByteArray
  /-- Compress with `zstd`. -/
  encodeAll : ByteArray → Except IoError ByteArray

structure Signer (scheme : Ed25519) where
  SigningKey : Type
  verifyingKey : SigningKey → scheme.VerifyingKey
  sign : SigningKey → List UInt8 → Bytes 64

structure PackageBuilder where
  entries : List Entry

namespace PackageBuilder

def new : PackageBuilder := ⟨[]⟩

def addFile (b : PackageBuilder) (path : String) (contents : ByteArray) : PackageBuilder :=
  ⟨b.entries ++ [(path, contents)]⟩

def sign (b : PackageBuilder) (env : Checking) (signer : Signer env.scheme) (key : signer.SigningKey) :
    PackageBuilder :=
  let signature := signer.sign key (signableBytes env.sort b.entries)
  (b.addFile signatureMemberPath signature.1).addFile publicKeyMemberPath
    (env.scheme.toBytes (signer.verifyingKey key)).1

def build (b : PackageBuilder) (encoder : Encoder) : Except PackageError ByteArray := do
  let tarBytes ← (encoder.tar b.entries).mapError archiveError
  (encoder.encodeAll tarBytes).mapError archiveError

end PackageBuilder

def tarRow (e : Entry) : Except IoError TarEntry := .ok ⟨.ok e.1, .ok e.2⟩

structure Archives (codec : Codec) (data tarBytes : ByteArray) (members : List Entry) : Prop where
  zstd : codec.decodeAll data = .ok tarBytes
  tar : codec.tarEntries tarBytes = .ok (members.map tarRow)

/-- Writing these members and reading them returns them, exactly and in order. -/
def RoundTrips (encoder : Encoder) (codec : Codec) (members : List Entry) : Prop :=
  ∃ tarBytes data, encoder.tar members = .ok tarBytes ∧ encoder.encodeAll tarBytes = .ok data ∧
    Archives codec data tarBytes members

/-- What a package is built from: files of distinct paths outside `signatures/`, one of them a
valid manifest. -/
structure PackageFiles (codec : Codec) (files : List Entry) (manifest : PackageManifest) : Prop where
  distinct : (files.map (·.1)).Nodup
  outside : ∀ e ∈ files, ¬ PackageMember.signatures.path.toList <+: e.1.toList
  manifest : ∃ contents text, (PackageMember.manifest.path, contents) ∈ files ∧
    String.fromUTF8? contents = some text ∧ PackageManifest.fromToml codec.toml text = .ok manifest

section Open
variable {codec : Codec} {data tarBytes : ByteArray} {members : List Entry}

theorem Archives.entries (h : Archives codec data tarBytes members) (manifest : PackageManifest) :
    (PackageReader.mk tarBytes manifest).entries codec = .ok members := by
  have hfold : ∀ before : List Entry, (members.map tarRow).foldlM (fun entries row => do
      let entry ← row.mapError archiveError
      let path ← entry.path.mapError archiveError
      let buf ← entry.contents.mapError archiveError
      return entries ++ [(path, buf)]) before = .ok (before ++ members) := by
    clear h
    induction members with
    | nil => exact fun before => congrArg Except.ok (List.append_nil before).symm
    | cons e members ih =>
      intro before
      rw [List.map_cons, List.foldlM_cons]
      refine (ih (before ++ [e])).trans ?_
      rw [List.append_assoc, List.singleton_append]
  rw [PackageReader.entries, PackageReader.scanEntries, h.tar]
  exact hfold []

theorem scan_member {text : String} {path : String} {bytes : ByteArray}
    (htext : path = PackageMember.manifest.path → String.fromUTF8? bytes = some text) (scan : Scan) :
    ∃ scan', Scan.entry scan ⟨.ok path, .ok bytes⟩ = .ok scan' ∧ scan'.entryPaths = scan.entryPaths ++ [path] ∧
      scan'.manifestRaw = if path = PackageMember.manifest.path then some text else scan.manifestRaw := by
  unfold Scan.entry
  by_cases hpath : path = PackageMember.manifest.path
  · have hread : (TarEntry.mk (.ok path) (.ok bytes)).readToString = .ok text := by
      unfold TarEntry.readToString
      simp only [bind, Except.bind, htext hpath]
    simp only [Except.mapError, hread, bind, Except.bind, dif_pos hpath]
    exact ⟨_, rfl, rfl, by rw [if_pos hpath]; rfl⟩
  · simp only [Except.mapError, bind, Except.bind, dif_neg hpath]
    exact ⟨_, rfl, rfl, by rw [if_neg hpath]; rfl⟩

theorem scan_members {text : String}
    (htext : ∀ e ∈ members, e.1 = PackageMember.manifest.path → String.fromUTF8? e.2 = some text) (scan : Scan) :
    ∃ scan', (members.map tarRow).foldlM (fun scan row => do Scan.entry scan (← row.mapError archiveError)) scan =
        .ok scan' ∧ scan'.entryPaths = scan.entryPaths ++ members.map (·.1) ∧
      scan'.manifestRaw = if PackageMember.manifest.path ∈ members.map (·.1) then some text else scan.manifestRaw := by
  induction members generalizing scan with
  | nil => exact ⟨scan, rfl, (List.append_nil _).symm, rfl⟩
  | cons e members ih =>
    obtain ⟨scan₁, hscan₁, hpaths₁, hraw₁⟩ := scan_member (htext e List.mem_cons_self) scan
    obtain ⟨scan₂, hscan₂, hpaths₂, hraw₂⟩ := ih (fun e' he' => htext e' (List.mem_cons_of_mem e he')) scan₁
    refine ⟨scan₂, ?_, ?_, ?_⟩
    · rw [List.map_cons, List.foldlM_cons]
      exact bind_ok.mpr ⟨scan₁, hscan₁, hscan₂⟩
    · rw [hpaths₂, hpaths₁, List.append_assoc, List.singleton_append, List.map_cons]
    · rw [hraw₂, hraw₁, List.map_cons]
      by_cases hrest : PackageMember.manifest.path ∈ members.map (·.1)
      · rw [if_pos hrest, if_pos (List.mem_cons_of_mem _ hrest)]
      · by_cases hpath : e.1 = PackageMember.manifest.path
        · rw [if_neg hrest, if_pos hpath, if_pos (by rw [hpath]; exact List.mem_cons_self)]
        · rw [if_neg hrest, if_neg hpath, if_neg fun hmem => (List.mem_cons.mp hmem).elim (fun h => hpath h.symm) hrest]

theorem validateLayout_of_mem {paths : List String} (h : PackageMember.manifest.path ∈ paths) :
    validateLayout paths = .ok () := by
  have hnone : PackageMember.all.find? (fun member => member.required && member.path ∉ paths) = none := by
    apply List.find?_eq_none.mpr
    intro member _
    cases member with
    | manifest => simp [h]
    | payload => simp [PackageMember.required]
    | assets => simp [PackageMember.required]
    | signatures => simp [PackageMember.required]
  rw [validateLayout, hnone]

theorem Archives.openArchive (h : Archives codec data tarBytes members) {text : String}
    (htext : ∀ e ∈ members, e.1 = PackageMember.manifest.path → String.fromUTF8? e.2 = some text)
    (hmem : PackageMember.manifest.path ∈ members.map (·.1)) {manifest : PackageManifest}
    (hmanifest : PackageManifest.fromToml codec.toml text = .ok manifest) :
    PackageReader.openArchive codec data = .ok ⟨tarBytes, manifest⟩ := by
  obtain ⟨scan, hscan, hpaths, hraw⟩ := scan_members htext .new
  rw [if_pos hmem] at hraw
  have hscan : PackageReader.scanEntries codec tarBytes Scan.entry .new = .ok scan := by
    rw [PackageReader.scanEntries, h.tar]
    exact hscan
  have hlayout : validateLayout scan.entryPaths = .ok () := by
    apply validateLayout_of_mem
    rw [hpaths]
    exact List.mem_append_right _ hmem
  unfold PackageReader.openArchive
  rw [h.zstd]
  refine bind_ok.mpr ⟨tarBytes, rfl, bind_ok.mpr ⟨scan, hscan, ?_⟩⟩
  split
  · next e hlayout' =>
    rw [hlayout] at hlayout'
    cases hlayout'
  · refine bind_ok.mpr ⟨manifest, ?_, rfl⟩
    simp only [hraw, Option.get_some]
    exact hmanifest

theorem openArchive_tarBytes {reader : PackageReader} (h : PackageReader.openArchive codec data = .ok reader) :
    codec.decodeAll data = .ok reader.tarBytes := by
  unfold PackageReader.openArchive at h
  obtain ⟨bytes, hbytes, h⟩ := bind_ok.mp h
  obtain ⟨scan, -, h⟩ := bind_ok.mp h
  split at h
  · cases h
  · obtain ⟨manifest, -, h⟩ := bind_ok.mp h
    obtain rfl := Except.ok.inj h
    cases hdecode : codec.decodeAll data with
    | error e =>
      rw [hdecode] at hbytes
      cases hbytes
    | ok bytes' =>
      rw [hdecode] at hbytes
      obtain rfl := Except.ok.inj hbytes
      rfl

theorem Archives.entries_of_open (h : Archives codec data tarBytes members) {reader : PackageReader}
    (hopen : PackageReader.openArchive codec data = .ok reader) : reader.entries codec = .ok members := by
  obtain ⟨readerBytes, manifest⟩ := reader
  obtain rfl : tarBytes = readerBytes := Except.ok.inj (h.zstd.symm.trans (openArchive_tarBytes hopen))
  exact h.entries manifest

end Open

theorem firstContents_of_mem {members : List Entry} (hdistinct : (members.map (·.1)).Nodup) {path : String}
    {contents : ByteArray} (hmem : (path, contents) ∈ members) : firstContents members path = some contents := by
  obtain ⟨found, hfound⟩ : ∃ found, members.find? (·.1 = path) = some found := by
    apply Option.isSome_iff_exists.mp
    exact List.find?_isSome.mpr ⟨_, hmem, by simp⟩
  have hpath : found.1 = path := by simpa using List.find?_some hfound
  have hsame := List.inj_on_of_nodup_map hdistinct (List.mem_of_find?_eq_some hfound) hmem hpath
  rw [firstContents, hfound, hsame, Option.map_some]

theorem asArray_val {n : Nat} (b : Bytes n) : asArray b.1 n = some b := dif_pos b.2

section Sign
variable {env : Checking} (signer : Signer env.scheme) (key : signer.SigningKey)

def signatureMembers (files : List Entry) : List Entry :=
  [(signatureMemberPath, (signer.sign key (signableBytes env.sort files)).1),
    (publicKeyMemberPath, (env.scheme.toBytes (signer.verifyingKey key)).1)]

/-- Ed25519 as far as one message goes: its signature verifies under the signer's public key for
that message and no other, and the key can be read back from its bytes. -/
structure VerifiesExactly (message : List UInt8) : Prop where
  verify : ∀ message', env.scheme.verify (signer.verifyingKey key) message' (signer.sign key message) = true ↔
    message' = message
  key : env.scheme.fromBytes (env.scheme.toBytes (signer.verifyingKey key)) = some (signer.verifyingKey key)

variable {signer key} {files members : List Entry} {codec : Codec}

theorem foldl_addFile (files : List Entry) (b : PackageBuilder) :
    (files.foldl (fun b e => b.addFile e.1 e.2) b).entries = b.entries ++ files := by
  induction files generalizing b with
  | nil => exact (List.append_nil _).symm
  | cons e files ih =>
    rw [List.foldl_cons, ih, PackageBuilder.addFile, List.append_assoc, List.singleton_append]

theorem signed_eq_self (h : ∀ e ∈ files, ¬ PackageMember.signatures.path.toList <+: e.1.toList) :
    signed files = files :=
  List.filter_eq_self.mpr fun e he => decide_eq_true (h e he)

theorem signatures_prefix : PackageMember.signatures.path.toList <+: signatureMemberPath.toList ∧
    PackageMember.signatures.path.toList <+: publicKeyMemberPath.toList := by decide

theorem signed_signatureMembers (files : List Entry) : signed (signatureMembers signer key files) = [] := by
  refine List.filter_eq_nil_iff.mpr fun e he => ?_
  rcases List.mem_cons.mp he with rfl | he
  · simpa using signatures_prefix.1
  · obtain rfl := List.mem_singleton.mp he
    simpa using signatures_prefix.2

theorem signableBytes_signed (files : List Entry) :
    signableBytes env.sort (files ++ signatureMembers signer key files) = signableBytes env.sort files := by
  have hfilter : signed (files ++ signatureMembers signer key files) = signed files := by
    rw [signed, List.filter_append]
    exact (congrArg (signed files ++ ·) (signed_signatureMembers files)).trans (List.append_nil _)
  rw [signableBytes, signableBytes, hfilter]

theorem sign_entries (b : PackageBuilder) :
    (b.sign env signer key).entries = b.entries ++ signatureMembers signer key b.entries := by
  unfold PackageBuilder.sign
  exact List.append_assoc _ _ _

theorem distinct_members (hdistinct : (files.map (·.1)).Nodup)
    (houtside : ∀ e ∈ files, ¬ PackageMember.signatures.path.toList <+: e.1.toList) (of : List Entry) :
    ((files ++ signatureMembers signer key of).map (·.1)).Nodup := by
  rw [List.map_append, List.nodup_append']
  refine ⟨hdistinct, ?_, fun path hpath hsig => ?_⟩
  · change [signatureMemberPath, publicKeyMemberPath].Nodup
    decide
  · obtain ⟨e, he, rfl⟩ := List.mem_map.mp hpath
    rcases List.mem_cons.mp hsig with heq | hsig
    · exact houtside e he (heq ▸ signatures_prefix.1)
    · rw [List.map_singleton, List.mem_singleton] at hsig
      exact houtside e he (hsig ▸ signatures_prefix.2)

theorem signatureStatus_members {reader : PackageReader}
    (hkey : env.scheme.fromBytes (env.scheme.toBytes (signer.verifyingKey key)) = some (signer.verifyingKey key))
    (hentries : reader.entries env.codec = .ok members) (hdistinct : (members.map (·.1)).Nodup)
    (hsignature : signatureMembers signer key files ⊆ members) :
    reader.signatureStatus env = .ok (if verify env members (signer.sign key (signableBytes env.sort files))
      (signer.verifyingKey key) then .verified else .invalid) := by
  have hsig := firstContents_of_mem hdistinct (hsignature List.mem_cons_self)
  have hpub := firstContents_of_mem hdistinct (hsignature (List.mem_cons_of_mem _ List.mem_cons_self))
  unfold PackageReader.signatureStatus
  rw [hentries]
  simp only [bind, Except.bind, hsig, hpub, asArray_val, hkey]
  rfl

end Sign

/-- One file more, one file less that is not the manifest, or other contents for one file. -/
inductive Tampered (files : List Entry) : List Entry → Prop
  | add {path : String} {contents : ByteArray} (hnew : path ∉ files.map (·.1))
    (houtside : ¬ PackageMember.signatures.path.toList <+: path.toList) : Tampered files ((path, contents) :: files)
  | remove {front back : List Entry} {e : Entry} (hfiles : files = front ++ e :: back)
    (hmanifest : e.1 ≠ PackageMember.manifest.path) : Tampered files (front ++ back)
  | replace {front back : List Entry} {path : String} {contents contents' : ByteArray}
    (hfiles : files = front ++ (path, contents) :: back) (hchanged : contents' ≠ contents) :
    Tampered files (front ++ (path, contents') :: back)

def signedSize (files : List Entry) : Nat := (files.map fun e => (utf8 e.1).length + 8 + e.2.data.toList.length + 1).sum

section Tamper
variable {files tampered members : List Entry}

theorem length_signableBytes (s : SortByPath) (files : List Entry) :
    (signableBytes s files).length = signedSize (signed files) := by
  have hwidth (n : Nat) : (lengthField n).length = 8 := Framing.length_leBytes 8 _
  rw [signableBytes_eq, Framing.length_frames hwidth, List.map_map, signedSize]
  exact ((s.perm (signed files)).map _).sum_nat

theorem signedSize_append (files more : List Entry) : signedSize (files ++ more) = signedSize files + signedSize more := by
  rw [signedSize, List.map_append, List.sum_append, signedSize, signedSize]

theorem signedSize_cons (e : Entry) (files : List Entry) : signedSize (e :: files) =
    (utf8 e.1).length + 8 + e.2.data.toList.length + 1 + signedSize files := by
  rw [signedSize, List.map_cons, List.sum_cons, signedSize]

theorem Tampered.distinct (h : Tampered files tampered) (hdistinct : (files.map (·.1)).Nodup) :
    (tampered.map (·.1)).Nodup := by
  cases h with
  | add hnew _ => exact List.nodup_cons.mpr ⟨hnew, hdistinct⟩
  | @remove front back e hfiles _ =>
    subst hfiles
    exact hdistinct.sublist (((List.Sublist.refl front).append (List.sublist_cons_self e back)).map _)
  | @replace front back path contents contents' hfiles _ =>
    subst hfiles
    rw [List.map_append, List.map_cons] at hdistinct ⊢
    exact hdistinct

theorem Tampered.outside (h : Tampered files tampered)
    (houtside : ∀ e ∈ files, ¬ PackageMember.signatures.path.toList <+: e.1.toList) :
    ∀ e ∈ tampered, ¬ PackageMember.signatures.path.toList <+: e.1.toList := by
  cases h with
  | add hnew hout => exact List.forall_mem_cons.mpr ⟨hout, houtside⟩
  | remove hfiles _ =>
    subst hfiles
    intro e he
    exact houtside e (by grind)
  | @replace front back path contents contents' hfiles _ =>
    subst hfiles
    intro e he
    have hpath : e.1 ∈ (front ++ (path, contents) :: back).map (·.1) := by
      have hmem := List.mem_map_of_mem (f := Prod.fst) he
      simpa using hmem
    obtain ⟨e', he', heq⟩ := List.mem_map.mp hpath
    rw [← heq]
    exact houtside e' he'

theorem perm_of_signableBytes (s : SortByPath) {a b : List Entry} (hdistinct : (b.map (·.1)).Nodup)
    (hsizes : (a.map fun e => (e.1, e.2.data.toList.length)).Perm (b.map fun e => (e.1, e.2.data.toList.length)))
    (h : ((s.sort a).map record).flatMap (Framing.frame utf8 0 lengthField) =
      ((s.sort b).map record).flatMap (Framing.frame utf8 0 lengthField)) : a.Perm b := by
  have hperm : ((s.sort a).map fun e => (e.1, e.2.data.toList.length)).Perm
      ((s.sort b).map fun e => (e.1, e.2.data.toList.length)) :=
    ((s.perm a).map _).trans (hsizes.trans ((s.perm b).map _).symm)
  have hsorted (l : List Entry) : ((s.sort l).map fun e => (e.1, e.2.data.toList.length)).Pairwise
      fun x y => x.1 ≤ y.1 := List.pairwise_map.mpr (s.sorted l)
  have hkeys : (((s.sort b).map fun e => (e.1, e.2.data.toList.length)).map Prod.fst).Nodup := by
    rw [List.map_map]
    exact (((s.perm b).map (·.1)).nodup_iff).mpr hdistinct
  have halign : ((s.sort a).map record).map (fun e => (e.1, e.2.length)) =
      ((s.sort b).map record).map fun e => (e.1, e.2.length) := by
    rw [List.map_map, List.map_map]
    refine List.Perm.eq_of_pairwise (fun x y hx hy hxy hyx => ?_) (hsorted a) (hsorted b) hperm
    exact List.inj_on_of_nodup_map hkeys (hperm.subset hx) hy (le_antisymm hxy hyx)
  have hrecords := Framing.frames_inj_of_aligned halign h
  have hlists := List.map_injective_iff.mpr record_injective hrecords
  exact (s.perm a).symm.trans (hlists ▸ s.perm b)

theorem Tampered.signableBytes_ne (h : Tampered files tampered) (s : SortByPath)
    (hdistinct : (files.map (·.1)).Nodup) (hfiles : signed files = files) (hmembers : (signed members).Perm tampered) :
    signableBytes s members ≠ signableBytes s files := by
  intro heq
  have hlength := congrArg List.length heq
  have hsize : signedSize (signed members) = signedSize tampered := (hmembers.map _).sum_nat
  rw [length_signableBytes, length_signableBytes, hfiles, hsize] at hlength
  cases h with
  | add _ _ =>
    rw [signedSize_cons] at hlength
    omega
  | remove hsplit _ =>
    rw [hsplit, signedSize_append, signedSize_append, signedSize_cons] at hlength
    omega
  | @replace front back path contents contents' hsplit hchanged =>
    have hsame : contents'.data.toList.length = contents.data.toList.length := by
      rw [hsplit, signedSize_append, signedSize_append, signedSize_cons, signedSize_cons] at hlength
      dsimp only at hlength
      omega
    rw [signableBytes_eq, signableBytes_eq, hfiles] at heq
    have hsizes : ((signed members).map fun e => (e.1, e.2.data.toList.length)).Perm
        (files.map fun e => (e.1, e.2.data.toList.length)) := by
      refine (hmembers.map _).trans ?_
      rw [hsplit, List.map_append, List.map_append, List.map_cons, List.map_cons, hsame]
    have hperm := hmembers.symm.trans (perm_of_signableBytes s hdistinct hsizes heq)
    -- the old contents of the path cannot be in the list of the new ones
    have hold : (path, contents) ∈ front ++ (path, contents') :: back :=
      hperm.symm.subset (by rw [hsplit]; simp)
    have hnew : (path, contents') ∈ files := hperm.subset (by simp)
    have hpair := List.inj_on_of_nodup_map hdistinct hnew (hperm.subset hold) rfl
    exact hchanged (Prod.mk.inj hpair).2

end Tamper

section RoundTrip

variable {env : Checking} {encoder : Encoder} {signer : Signer env.scheme} {key : signer.SigningKey}
  {files : List Entry} {manifest : PackageManifest}

theorem classify_verified {reader : PackageReader} {members : List Entry} (hentries : reader.entries env.codec = .ok members)
    (hverified : reader.signatureStatus env = .ok .verified) (hdistinct : (members.map (·.1)).Nodup)
    (hpub : (publicKeyMemberPath, (env.scheme.toBytes (signer.verifyingKey key)).1) ∈ members)
    (hkey : env.scheme.fromBytes (env.scheme.toBytes (signer.verifyingKey key)) = some (signer.verifyingKey key))
    (store : TrustStore) :
    classify env reader store = .ok ((store.levelFor env (signer.verifyingKey key)).getD .unknown) := by
  have hread := readEntry_of_entries hentries publicKeyMemberPath
  rw [firstContents_of_mem hdistinct hpub] at hread
  unfold classify
  rw [hverified]
  simp only [bind, Except.bind, ne_eq, not_true_eq_false, if_false, hread, asArray_val, hkey]
  rfl

/-- A package that was signed, built and opened has its files and a valid signature of the key, and
is trusted as the store says; an archive of its members, tampered with, does not verify. -/
theorem sign_build_open (hfiles : PackageFiles env.codec files manifest)
    (hexact : VerifiesExactly signer key (signableBytes env.sort files))
    (hround : RoundTrips encoder env.codec (files ++ signatureMembers signer key files)) :
    (∃ data reader,
      ((files.foldl (fun b e => b.addFile e.1 e.2) PackageBuilder.new).sign env signer key).build encoder = .ok data ∧
        PackageReader.openArchive env.codec data = .ok reader ∧ reader.manifest = manifest ∧
        reader.entries env.codec = .ok (files ++ signatureMembers signer key files) ∧
        reader.signatureStatus env = .ok .verified ∧ reader.requireValidSignature env = .ok () ∧
        ∀ store : TrustStore,
          classify env reader store = .ok ((store.levelFor env (signer.verifyingKey key)).getD .unknown)) ∧
      ∀ tampered members data tarBytes reader, Tampered files tampered →
        members.Perm (tampered ++ signatureMembers signer key files) → Archives env.codec data tarBytes members →
        PackageReader.openArchive env.codec data = .ok reader → reader.signatureStatus env ≠ .ok .verified := by
  constructor
  · obtain ⟨tarBytes, data, htar, hzstd, harchive⟩ := hround
    obtain ⟨contents, text, hmem, hutf8, hmanifest⟩ := hfiles.manifest
    have hdistinct : ((files ++ signatureMembers signer key files).map (·.1)).Nodup :=
      distinct_members hfiles.distinct hfiles.outside files
    have hentries := harchive.entries manifest
    have hverified : (PackageReader.mk tarBytes manifest).signatureStatus env = .ok .verified := by
      rw [signatureStatus_members hexact.key hentries hdistinct (List.subset_append_right _ _), verify,
        signableBytes_signed, if_pos ((hexact.verify _).mpr rfl)]
    refine ⟨data, ⟨tarBytes, manifest⟩, ?_, ?_, rfl, hentries, hverified, ?_, ?_⟩
    · rw [PackageBuilder.build, sign_entries, foldl_addFile]
      refine bind_ok.mpr ⟨tarBytes, ?_, ?_⟩
      · exact congrArg (Except.mapError archiveError) htar
      · exact congrArg (Except.mapError archiveError) hzstd
    · -- the manifest's path is that of one file, so every entry there has its text
      have htext : ∀ e ∈ files ++ signatureMembers signer key files, e.1 = PackageMember.manifest.path →
          String.fromUTF8? e.2 = some text := by
        intro e he hpath
        have hsame := List.inj_on_of_nodup_map hdistinct he (List.mem_append_left _ hmem) hpath
        rw [hsame]
        exact hutf8
      apply harchive.openArchive htext ?_ hmanifest
      exact List.mem_map_of_mem (List.mem_append_left _ hmem)
    · unfold PackageReader.requireValidSignature
      rw [hverified]
      rfl
    · apply classify_verified hentries hverified hdistinct ?_ hexact.key
      exact List.mem_append_right _ (List.mem_cons_of_mem _ List.mem_cons_self)
  · intro tampered members data tarBytes reader htampered hmembers harchive hopen
    have hdistinct : (members.map (·.1)).Nodup := by
      refine ((hmembers.map _).nodup_iff).mpr ?_
      exact distinct_members (htampered.distinct hfiles.distinct) (htampered.outside hfiles.outside) files
    have hsignature : signatureMembers signer key files ⊆ members :=
      fun e he => hmembers.symm.subset (List.mem_append_right _ he)
    -- what counts as signed in the archive are the tampered files, in some order
    have hsigned : (signed members).Perm tampered := by
      have hperm := hmembers.filter fun e => ¬ PackageMember.signatures.path.toList <+: e.1.toList
      refine hperm.trans ?_
      rw [List.filter_append]
      change (signed tampered ++ signed (signatureMembers signer key files)).Perm tampered
      rw [signed_eq_self (htampered.outside hfiles.outside), signed_signatureMembers, List.append_nil]
    have hne := htampered.signableBytes_ne env.sort hfiles.distinct (signed_eq_self hfiles.outside) hsigned
    have hfails : ¬ verify env members (signer.sign key (signableBytes env.sort files)) (signer.verifyingKey key) :=
      mt (hexact.verify _).mp hne
    rw [signatureStatus_members hexact.key (harchive.entries_of_open hopen) hdistinct hsignature, if_neg hfails]
    intro heq
    cases heq

end RoundTrip

def relayToml : String :=
  "[package]\nname = \"relay\"\nversion = \"1.0.0\"\nmodule_type = \"Transport\"\n" ++
  "api_version = \"1.0\"\nauthor = \"relay\"\ndescription = \"A relay.\"\n"

def relayFiles (payload : ByteArray) : List Entry :=
  [(PackageMember.manifest.path, relayToml.toByteArray), ("payload/relay.wasm", payload)]

/-- An archive is the payload of a signed relay, and one key has signed the payload `1`. -/
def relayChecking : Checking where
  codec.decodeAll := .ok
  codec.tarEntries payload := .ok ((relayFiles payload ++ stubSigned).map tarRow)
  codec.toml text := if text = relayToml then .ok (stubManifest "relay" []) else .error "no relay"
  sort := insertionSortByPath
  scheme.VerifyingKey := Bytes 32
  scheme.fromBytes := some
  scheme.toBytes := id
  scheme.verify _ message signature :=
    message = signableBytes insertionSortByPath (relayFiles ⟨#[1]⟩) ∧ signature.1.data.toList = List.replicate 64 7

def relayEncoder : Encoder where
  tar members := .ok ((firstContents members "payload/relay.wasm").getD .empty)
  encodeAll := .ok

def relaySigner : Signer relayChecking.scheme where
  SigningKey := Bytes 32
  verifyingKey := id
  sign _ _ := ⟨⟨Array.replicate 64 7⟩, rfl⟩

theorem relay_packageFiles : PackageFiles relayChecking.codec (relayFiles ⟨#[1]⟩) (stubManifest "relay" []) := by
  refine ⟨by decide, by decide, relayToml.toByteArray, relayToml, List.mem_cons_self, ?_, ?_⟩
  · exact dif_pos relayToml.isValidUTF8
  · have hparse : relayChecking.codec.toml relayToml = .ok (stubManifest "relay" []) := by simp [relayChecking]
    rw [PackageManifest.fromToml, hparse]
    rfl

theorem relay_verifiesExactly :
    VerifiesExactly relaySigner stubKey (signableBytes relayChecking.sort (relayFiles ⟨#[1]⟩)) := by
  refine ⟨fun message => ?_, rfl⟩
  exact decide_eq_true_iff.trans (and_iff_left rfl)

theorem sign_build_open_relay :
    (∃ data reader, (((relayFiles ⟨#[1]⟩).foldl (fun b e => b.addFile e.1 e.2) PackageBuilder.new).sign relayChecking
        relaySigner stubKey).build relayEncoder = .ok data ∧
      PackageReader.openArchive relayChecking.codec data = .ok reader ∧
      reader.signatureStatus relayChecking = .ok .verified) ∧
      ∀ reader, PackageReader.openArchive relayChecking.codec ⟨#[2]⟩ = .ok reader →
        reader.signatureStatus relayChecking ≠ .ok .verified := by
  have hround : RoundTrips relayEncoder relayChecking.codec (relayFiles ⟨#[1]⟩ ++ signatureMembers relaySigner stubKey
      (relayFiles ⟨#[1]⟩)) := ⟨⟨#[1]⟩, ⟨#[1]⟩, rfl, rfl, rfl, rfl⟩
  obtain ⟨⟨data, reader, hbuild, hopen, -, -, hverified, -⟩, htamper⟩ := sign_build_open relay_packageFiles relay_verifiesExactly hround
  refine ⟨⟨data, reader, hbuild, hopen, hverified⟩, fun reader hopen => ?_⟩
  have htampered : Tampered (relayFiles ⟨#[1]⟩) (relayFiles ⟨#[2]⟩) :=
    @Tampered.replace _ [(PackageMember.manifest.path, relayToml.toByteArray)] [] _ _ _ rfl (by decide)
  exact htamper _ _ ⟨#[2]⟩ ⟨#[2]⟩ reader htampered (.refl _) ⟨rfl, rfl⟩ hopen

end Nyarix
