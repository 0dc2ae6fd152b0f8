import Nyarix.Package.Builder

/-! When the three scans of an archive agree. `open` keeps the last manifest, `readEntry` takes the
first member of a path, and `entries` lists every member. -/

namespace Nyarix

def Reads (row : Except IoError TarEntry) (e : Entry) : Prop :=
  ∃ entry, row = .ok entry ∧ entry.path = .ok e.1 ∧ entry.contents = .ok e.2

/-- Every member of the stream can be read, and those of one path have the same contents. -/
def SinglyStored (codec : Codec) (tarBytes : ByteArray) : Prop :=
  ∃ rows, codec.tarEntries tarBytes = .ok rows ∧ (∀ row ∈ rows, ∃ e, Reads row e) ∧
    ∀ row ∈ rows, ∀ row' ∈ rows, ∀ e e', Reads row e → Reads row' e' → e.1 = e'.1 → e.2 = e'.2

/-- The manifest is the one that `readEntry` would give, and `readEntry` gives a member's contents
exactly if they are all that `entries` lists for its path. -/
structure ReadersAgree (codec : Codec) (reader : PackageReader) : Prop where
  manifest : ∃ contents text, reader.readEntry codec PackageMember.manifest.path = .ok (some contents) ∧
    String.fromUTF8? contents = some text ∧ PackageManifest.fromToml codec.toml text = .ok reader.manifest
  members : ∀ path contents, reader.readEntry codec path = .ok (some contents) ↔
    ∃ entries, reader.entries codec = .ok entries ∧ (path, contents) ∈ entries ∧
      ∀ other, (path, other) ∈ entries → other = contents

theorem mapError_ok {E E' A : Type} {f : E → E'} {x : Except E A} {a : A} : x.mapError f = .ok a ↔ x = .ok a := by
  cases x with
  | error e => exact iff_of_false (fun h => by cases h) fun h => by cases h
  | ok b => rw [Except.mapError, Except.ok.injEq, Except.ok.injEq]

theorem Reads.unique {row : Except IoError TarEntry} {e e' : Entry} (h : Reads row e) (h' : Reads row e') : e = e' := by
  obtain ⟨entry, rfl, hpath, hcontents⟩ := h
  obtain ⟨entry', hrow, hpath', hcontents'⟩ := h'
  obtain rfl := Except.ok.inj hrow
  exact Prod.ext (Except.ok.inj (hpath.symm.trans hpath')) (Except.ok.inj (hcontents.symm.trans hcontents'))

section Scans
variable {codec : Codec} {reader : PackageReader}

theorem foldlM_entries {rows : List (Except IoError TarEntry)} {before entries : List Entry} :
    rows.foldlM (fun entries row => do
      let entry ← row.mapError archiveError
      let path ← entry.path.mapError archiveError
      let buf ← entry.contents.mapError archiveError
      return entries ++ [(path, buf)]) before = .ok entries ↔
    ∃ rest, entries = before ++ rest ∧ List.Forall₂ Reads rows rest := by
  induction rows generalizing before with
  | nil =>
    constructor
    · intro h
      obtain rfl := Except.ok.inj h
      exact ⟨[], (List.append_nil _).symm, .nil⟩
    · rintro ⟨rest, rfl, h⟩
      cases h
      exact congrArg Except.ok (List.append_nil _).symm
  | cons row rows ih =>
    rw [List.foldlM_cons, bind_ok]
    constructor
    · rintro ⟨next, hstep, h⟩
      obtain ⟨entry, hrow, hstep⟩ := bind_ok.mp hstep
      obtain ⟨path, hpath, hstep⟩ := bind_ok.mp hstep
      obtain ⟨buf, hbuf, hstep⟩ := bind_ok.mp hstep
      obtain rfl := Except.ok.inj hstep
      obtain ⟨rest, rfl, hrest⟩ := ih.mp h
      refine ⟨(path, buf) :: rest, by rw [List.append_assoc, List.singleton_append], .cons ?_ hrest⟩
      exact ⟨entry, mapError_ok.mp hrow, mapError_ok.mp hpath, mapError_ok.mp hbuf⟩
    · rintro ⟨rest, rfl, h⟩
      cases h with
      | cons hreads hrest =>
        rename_i e rest
        obtain ⟨entry, hrow, hpath, hbuf⟩ := hreads
        refine ⟨before ++ [e], bind_ok.mpr ⟨entry, mapError_ok.mpr hrow, bind_ok.mpr ⟨e.1, mapError_ok.mpr hpath,
          bind_ok.mpr ⟨e.2, mapError_ok.mpr hbuf, rfl⟩⟩⟩, ih.mpr ⟨rest, ?_, hrest⟩⟩
        rw [List.append_assoc, List.singleton_append]

theorem entries_ok_iff {entries : List Entry} : reader.entries codec = .ok entries ↔
    ∃ rows, codec.tarEntries reader.tarBytes = .ok rows ∧ List.Forall₂ Reads rows entries := by
  refine bind_ok.trans (exists_congr fun rows => and_congr mapError_ok ?_)
  refine foldlM_entries.trans ⟨?_, fun h => ⟨entries, rfl, h⟩⟩
  rintro ⟨rest, rfl, h⟩
  exact h

theorem scan_manifest {rows : List (Except IoError TarEntry)} {scan scan' : Scan} {text : String}
    (h : rows.foldlM (fun scan row => do Scan.entry scan (← row.mapError archiveError)) scan = .ok scan')
    (htext : scan'.manifestRaw = some text) : scan.manifestRaw = some text ∨
      ∃ row ∈ rows, ∃ contents, Reads row (PackageMember.manifest.path, contents) ∧ String.fromUTF8? contents = some text := by
  induction rows generalizing scan with
  | nil =>
    obtain rfl := Except.ok.inj h
    exact .inl htext
  | cons row rows ih =>
    rw [List.foldlM_cons] at h
    obtain ⟨next, hstep, h⟩ := bind_ok.mp h
    rcases ih h with hnext | ⟨row', hrow', hlater⟩
    · obtain ⟨entry, hrow, hstep⟩ := bind_ok.mp hstep
      obtain ⟨path, hpath, hstep⟩ := bind_ok.mp hstep
      split at hstep
      · next hmanifest =>
        obtain ⟨buf, hbuf, hstep⟩ := bind_ok.mp hstep
        obtain rfl := Except.ok.inj hstep
        obtain rfl : buf = text := Option.some.inj hnext
        obtain ⟨contents, hcontents, hutf8⟩ := bind_ok.mp (mapError_ok.mp hbuf)
        refine .inr ⟨row, List.mem_cons_self, contents, ⟨entry, mapError_ok.mp hrow, ?_, hcontents⟩, ?_⟩
        · rw [mapError_ok.mp hpath, hmanifest]
        · cases hbytes : String.fromUTF8? contents with
          | none => simp [hbytes] at hutf8
          | some s => simpa [hbytes] using hutf8
      · obtain rfl := Except.ok.inj hstep
        exact .inl hnext
    · exact .inr ⟨row', List.mem_cons_of_mem row hrow', hlater⟩

theorem openArchive_manifest {data : ByteArray} (h : PackageReader.openArchive codec data = .ok reader) :
    ∃ rows, codec.tarEntries reader.tarBytes = .ok rows ∧ ∃ row ∈ rows, ∃ contents text,
      Reads row (PackageMember.manifest.path, contents) ∧ String.fromUTF8? contents = some text ∧
      PackageManifest.fromToml codec.toml text = .ok reader.manifest := by
  unfold PackageReader.openArchive at h
  obtain ⟨tarBytes, -, h⟩ := bind_ok.mp h
  obtain ⟨scan, hscan, h⟩ := bind_ok.mp h
  split at h
  · cases h
  · obtain ⟨manifest, hmanifest, h⟩ := bind_ok.mp h
    obtain rfl := Except.ok.inj h
    obtain ⟨rows, hrows, hscan⟩ := bind_ok.mp hscan
    rcases scan_manifest hscan (Option.some_get _).symm with hnone | ⟨row, hrow, contents, hreads, hutf8⟩
    · cases hnone
    · exact ⟨rows, mapError_ok.mp hrows, row, hrow, contents, _, hreads, hutf8, hmanifest⟩

end Scans

theorem mem_of_firstContents {entries : List Entry} {path : String} {contents : ByteArray}
    (h : firstContents entries path = some contents) : (path, contents) ∈ entries := by
  obtain ⟨e, hfind, rfl⟩ := Option.map_eq_some_iff.mp h
  have hpath := List.find?_some hfind
  rw [← of_decide_eq_true hpath]
  exact List.mem_of_find?_eq_some hfind

theorem exists_firstContents {entries : List Entry} {path : String} {contents : ByteArray}
    (h : (path, contents) ∈ entries) : ∃ first, firstContents entries path = some first := by
  obtain ⟨e, hfind⟩ := Option.isSome_iff_exists.mp
    (List.find?_isSome (p := fun e : Entry => decide (e.1 = path)).mpr ⟨_, h, decide_eq_true rfl⟩)
  exact ⟨e.2, by rw [firstContents, hfind]; rfl⟩

theorem firstContents_eq_some_iff {entries : List Entry} (h : ∀ e ∈ entries, ∀ e' ∈ entries, e.1 = e'.1 → e.2 = e'.2)
    (path : String) (contents : ByteArray) : firstContents entries path = some contents ↔
      (path, contents) ∈ entries ∧ ∀ other, (path, other) ∈ entries → other = contents := by
  constructor
  · intro hfirst
    have hmem := mem_of_firstContents hfirst
    exact ⟨hmem, fun other hother => h _ hother _ hmem rfl⟩
  · rintro ⟨hmem, hall⟩
    obtain ⟨first, hfirst⟩ := exists_firstContents hmem
    rw [hfirst, hall first (mem_of_firstContents hfirst)]

theorem forall₂_of_forall {rows : List (Except IoError TarEntry)} (h : ∀ row ∈ rows, ∃ e, Reads row e) :
    ∃ entries, List.Forall₂ Reads rows entries := by
  induction rows with
  | nil => exact ⟨[], .nil⟩
  | cons row rows ih =>
    obtain ⟨e, he⟩ := h row List.mem_cons_self
    obtain ⟨entries, hentries⟩ := ih fun row' hrow' => h row' (List.mem_cons_of_mem row hrow')
    exact ⟨e :: entries, .cons he hentries⟩

theorem exists_reads {rows : List (Except IoError TarEntry)} {entries : List Entry}
    (h : List.Forall₂ Reads rows entries) : ∀ row ∈ rows, ∃ e, Reads row e := by
  induction h with
  | nil => simp
  | cons hreads _ ih => exact List.forall_mem_cons.mpr ⟨⟨_, hreads⟩, ih⟩

theorem mem_entries_iff {rows : List (Except IoError TarEntry)} {entries : List Entry}
    (h : List.Forall₂ Reads rows entries) (e : Entry) : e ∈ entries ↔ ∃ row ∈ rows, Reads row e := by
  induction h with
  | nil => simp
  | @cons row e' rows entries hreads _ ih =>
    rw [List.mem_cons, ih, List.exists_mem_cons_iff]
    exact or_congr_left ⟨fun heq => heq ▸ hreads, fun he => he.unique hreads⟩

section Agreement
variable {codec : Codec} {reader : PackageReader}

theorem ReadersAgree.singlyStored (h : ReadersAgree codec reader) : SinglyStored codec reader.tarBytes := by
  obtain ⟨⟨contents, text, hread, -⟩, hmembers⟩ := h
  obtain ⟨entries, hentries, -⟩ := (hmembers _ _).mp hread
  obtain ⟨rows, hrows, hall⟩ := entries_ok_iff.mp hentries
  refine ⟨rows, hrows, exists_reads hall, fun row hrow row' hrow' e e' hreads hreads' hpath => ?_⟩
  have hmem : (e.1, e.2) ∈ entries := (mem_entries_iff hall e).mpr ⟨row, hrow, hreads⟩
  have hmem' : (e.1, e'.2) ∈ entries := by
    rw [hpath]
    exact (mem_entries_iff hall e').mpr ⟨row', hrow', hreads'⟩
  -- the contents that are read are those of both
  obtain ⟨first, hfirst⟩ := exists_firstContents hmem
  have hsome := readEntry_of_entries hentries e.1
  rw [hfirst] at hsome
  obtain ⟨entries', hentries', -, honly⟩ := (hmembers _ _).mp hsome
  obtain rfl := Except.ok.inj (hentries.symm.trans hentries')
  exact (honly _ hmem).trans (honly _ hmem').symm

theorem SinglyStored.readersAgree {data : ByteArray} (h : SinglyStored codec reader.tarBytes)
    (hopen : PackageReader.openArchive codec data = .ok reader) : ReadersAgree codec reader := by
  obtain ⟨rows, hrows, hreadable, hsingle⟩ := h
  obtain ⟨entries, hall⟩ := forall₂_of_forall hreadable
  have hentries : reader.entries codec = .ok entries := entries_ok_iff.mpr ⟨rows, hrows, hall⟩
  have hsame : ∀ e ∈ entries, ∀ e' ∈ entries, e.1 = e'.1 → e.2 = e'.2 := fun e he e' he' hpath => by
    obtain ⟨row, hrow, hreads⟩ := (mem_entries_iff hall e).mp he
    obtain ⟨row', hrow', hreads'⟩ := (mem_entries_iff hall e').mp he'
    exact hsingle row hrow row' hrow' e e' hreads hreads' hpath
  have hread (path : String) (contents : ByteArray) : reader.readEntry codec path = .ok (some contents) ↔
      (path, contents) ∈ entries ∧ ∀ other, (path, other) ∈ entries → other = contents := by
    rw [readEntry_of_entries hentries, Except.ok.injEq, firstContents_eq_some_iff hsame]
  refine ⟨?_, fun path contents => (hread path contents).trans ?_⟩
  · obtain ⟨rows', hrows', row, hrow, contents, text, hreads, hutf8, hmanifest⟩ := openArchive_manifest hopen
    obtain rfl := Except.ok.inj (hrows.symm.trans hrows')
    have hmem := (mem_entries_iff hall _).mpr ⟨row, hrow, hreads⟩
    exact ⟨contents, text, (hread _ _).mpr ⟨hmem, fun other hother => hsame _ hother _ hmem rfl⟩, hutf8, hmanifest⟩
  · constructor
    · exact fun hmem => ⟨entries, hentries, hmem⟩
    · rintro ⟨entries', hentries', hmem⟩
      obtain rfl := Except.ok.inj (hentries.symm.trans hentries')
      exact hmem

end Agreement

/-- The readers of an accepted archive agree exactly if all its members can be read and none of
them stands beside another of its path with other contents. -/
theorem readers_agree_iff {codec : Codec} {data : ByteArray} {reader : PackageReader}
    (h : PackageReader.openArchive codec data = .ok reader) :
    ReadersAgree codec reader ↔ SinglyStored codec reader.tarBytes :=
  ⟨ReadersAgree.singlyStored, fun hstored => hstored.readersAgree h⟩

theorem readers_agree_iff_relay : ReadersAgree (stubCodec "relay" []) (stubReader "relay" ⟨#[0]⟩) ↔
    SinglyStored (stubCodec "relay" []) ⟨#[0]⟩ :=
  @readers_agree_iff _ ⟨#[0]⟩ _ rfl

def twoManifests : Codec where
  decodeAll := .ok
  tarEntries _ := .ok (["a", "b"].map fun text => .ok ⟨.ok "manifest.toml", .ok text.toUTF8⟩)
  toml text := .ok (stubManifest text [])

theorem two_manifests_disagree :
    PackageReader.openArchive twoManifests ⟨#[0]⟩ = .ok ⟨⟨#[0]⟩, stubManifest "b" []⟩ ∧
      ¬ ReadersAgree twoManifests ⟨⟨#[0]⟩, stubManifest "b" []⟩ := by
  refine ⟨rfl, fun h => ?_⟩
  obtain ⟨contents, text, hread, hutf8, hmanifest⟩ := h.manifest
  obtain rfl : "a".toUTF8 = contents := Option.some.inj (Except.ok.inj hread)
  obtain rfl : "a" = text := Option.some.inj hutf8
  exact absurd (Except.ok.inj hmanifest) (by decide)

end Nyarix
