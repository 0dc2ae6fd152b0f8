import Nyarix.Lib.Document
import Nyarix.Loader.Cache
import Nyarix.Loader.Containment
import Nyarix.Loader.Rollback

/-! What the loader finds again when it starts: the log of installs and rollbacks in `history.json`,
the index of the cache in `packages.json`. Both are written in place. -/

namespace Nyarix
open Semver (Version)

variable {JsonError : Type}

section Reads
variable {A B E : Type} {x : Except E A} {f : A → B}

theorem reads_ok {g : B → A} (hfg : ∀ b, f (g b) = b) (hgf : ∀ a, g (f a) = a) {b : B} :
    x.map f = .ok b ↔ x = .ok (g b) := by
  cases x with
  | error e => exact ⟨nofun, nofun⟩
  | ok a =>
    refine ⟨fun h => ?_, fun h => ?_⟩
    · rw [← Except.ok.inj h, hgf]
    · rw [Except.ok.inj h, Except.map, hfg]

theorem reads_error : (∃ e, x.map f = .error e) ↔ ∃ e, x = .error e := by
  cases x with
  | error e => exact ⟨fun _ => ⟨e, rfl⟩, fun _ => ⟨e, rfl⟩⟩
  | ok a => exact ⟨nofun, nofun⟩

end Reads

namespace RollbackHistory

def filePath (root : UnixPath) : UnixPath := root.join (.new "history.json")

theorem filePath_named (root : UnixPath) : (filePath root).named := by
  rw [filePath, UnixPath.named_join]
  decide

section Log
variable [LinearOrder Version] (json : Format (List HistoryEntry) JsonError) (root : UnixPath)

def keeper : Keeper (List HistoryEntry) JsonError HistoryCall where
  format := json
  blank := []
  dirs := (filePath root).parent.toList
  path := filePath root
  named := filePath_named root
  edit call entries := (RollbackHistory.step ⟨entries⟩ call).entries
  removes _ _ _ := false

def openFile (disk : Disk) : Except (FileError JsonError) RollbackHistory := ((keeper json root).load disk).map .mk

def save (history : RollbackHistory) (disk : Disk) : Except (FileError JsonError) Unit × Disk :=
  (keeper json root).save history.entries disk

def session (disk : Disk) (steps : List (SessionStep HistoryCall)) : Session (List HistoryEntry) JsonError :=
  (keeper json root).run ⟨disk, (keeper json root).load disk⟩ steps

theorem step_entries (history : RollbackHistory) (call : HistoryCall) :
    history.entries <+: (history.step call).entries := by
  cases call with
  | recordInstall now name version => exact List.prefix_append _ _
  | rollbackPackage env now name =>
    change history.entries <+: (rollbackPackage env now name history).2.entries
    rcases rollbackPackage_cases env now name history with ⟨_, hr⟩ | ⟨previous, -, hr⟩ <;> rw [hr]
    exact List.prefix_append _ _

variable {json root} {disk : Disk}

theorem openFile_ok {found : RollbackHistory} :
    openFile json root disk = .ok found ↔ (keeper json root).load disk = .ok found.entries :=
  reads_ok (fun _ => rfl) fun _ => rfl

/-- Whatever the disk does to the saves, what a start finds of the log is its beginning, and all of it
after a save that succeeded. A start fails only when a save failed before. -/
theorem history_survives (habsent : disk.file ((filePath root).locate disk.cwd) = none)
    (steps : List (SessionStep HistoryCall)) :
    let s := session json root disk steps
    (∀ found entries, openFile json root s.disk = .ok found → s.current = .ok entries → found.entries <+: entries) ∧
    ((∃ e, openFile json root s.disk = .error e) → ∃ before history, before ++ [.save] <+: steps ∧
      (session json root disk before).current = .ok (entries history) ∧
      ∃ e, (history.save json root (session json root disk before).disk).1 = .error e) ∧
    ∀ before after history, steps = before ++ .save :: after → .save ∉ after →
      (session json root disk before).current = .ok (entries history) →
      (history.save json root (session json root disk before).disk).1 = .ok () →
      openFile json root s.disk = .ok history := by
  have hopened : (keeper json root).load disk = .ok [] := Keeper.load_absent (k := keeper json root) habsent
  intro s
  refine ⟨fun found entries hfound hentries => ?_, fun hfails => ?_, fun before after history hsteps hlast hdoc hok => ?_⟩
  · exact Keeper.load_below (k := keeper json root) (R := List.IsPrefix) (fun _ => List.prefix_rfl)
      (fun h h' => h.trans h') (fun _ => List.nil_prefix) (fun call entries => step_entries ⟨entries⟩ call)
      habsent steps (openFile_ok.mp hfound) hentries
  · obtain ⟨e, he⟩ := reads_error.mp hfails
    rcases Keeper.finds_run (k := keeper json root) (s := ⟨disk, _⟩) hopened habsent steps with
      ⟨_, _, _, _, hload⟩ | ⟨-, before, doc, hbefore, hdoc, hsave⟩
    · cases hload.symm.trans he
    · exact ⟨before, ⟨doc⟩, hbefore, hdoc, hsave⟩
  · refine openFile_ok.mpr ?_
    subst hsteps
    exact Keeper.load_of_saved hdoc hok hlast fun _ _ _ _ _ => rfl

end Log

def relayInstalled : HistoryEntry := ⟨"relay", .new 1 0 0, .installed, 0⟩

def relayText : String := "[
  \x7b
    \"name\": \"relay\",
    \"version\": \"1.0.0\",
    \"kind\": \"Installed\",
    \"at\": \"1970-01-01T00:00:00Z\"
  \x7d
]"

def relayJson : Format (List HistoryEntry) Unit := .ofTexts [([], "[]"), ([relayInstalled], relayText)] (by decide +kernel)

def relaySteps : List (SessionStep HistoryCall) :=
  [.edit (.recordInstall 0 "relay" (.new 1 0 0)), .save, .edit (.recordInstall 1 "relay" (.new 2 0 0)), .restart]

theorem history_survives_killed : letI := Version.numericOrder
    openFile relayJson (.new "/srv") (session relayJson (.new "/srv") stubDisk relaySteps).disk =
      .ok ⟨[relayInstalled]⟩ := by
  let _ := Version.numericOrder
  obtain ⟨-, -, hlast⟩ := @history_survives Unit _ relayJson (.new "/srv") stubDisk rfl relaySteps
  refine hlast [.edit (.recordInstall 0 "relay" (.new 1 0 0))] _ ⟨[relayInstalled]⟩ rfl ?_ rfl rfl
  simp

end RollbackHistory

/-- A call on the cache. An eviction gets to remove some of the files that it sets out to. -/
inductive CacheEdit where
  | record (entry : CacheEntry)
  | evictToFit (maxBytes : UInt64) (gone : Location → Bool)

def CacheEdit.call : CacheEdit → CacheCall
  | .record entry => .record entry
  | .evictToFit maxBytes _ => .evictToFit maxBytes

namespace PackageCache
variable (json : Format (List CacheEntry) JsonError) (root : UnixPath) (cwd : Location)

def indexPath (root : UnixPath) : UnixPath := root.join (.new "packages.json")

theorem indexPath_named (root : UnixPath) : (indexPath root).named := by
  rw [indexPath, UnixPath.named_join]
  decide

def removes (cwd : Location) : CacheEdit → List CacheEntry → Location → Bool
  | .record _, _, _ => false
  | .evictToFit maxBytes gone, entries, l =>
    gone l && (evictToFit ⟨entries⟩ maxBytes).removedDirs.any fun dir => (dir.locate cwd).isPrefixOf l

def keeper : Keeper (List CacheEntry) JsonError CacheEdit where
  format := json
  blank := []
  dirs := [root]
  path := indexPath root
  named := indexPath_named root
  edit edit entries := (PackageCache.step ⟨entries⟩ edit.call).entries
  removes := removes cwd

def openIndex (disk : Disk) : Except (FileError JsonError) PackageCache := ((keeper json root disk.cwd).load disk).map .mk

def save (cache : PackageCache) (disk : Disk) : Except (FileError JsonError) Unit × Disk :=
  (keeper json root disk.cwd).save cache.entries disk

def session (disk : Disk) (steps : List (SessionStep CacheEdit)) : Session (List CacheEntry) JsonError :=
  (keeper json root disk.cwd).run ⟨disk, (keeper json root disk.cwd).load disk⟩ steps

variable {json root} {disk : Disk}

theorem session_cwd (steps : List (SessionStep CacheEdit)) : (session json root disk steps).disk.cwd = disk.cwd :=
  Keeper.run_cwd _ _ steps

theorem openIndex_ok {found : PackageCache} :
    openIndex json root disk = .ok found ↔ (keeper json root cwd).load disk = .ok found.entries :=
  reads_ok (fun _ => rfl) fun _ => rfl

/-- Whatever the disk does to the saves, what a start finds of the index is the index of an earlier time,
and the latest after a save that succeeded, as long as no eviction removes a directory that the file is
in. A start fails only when a save failed before. -/
theorem cache_survives (habsent : disk.file ((indexPath root).locate disk.cwd) = none)
    (steps : List (SessionStep CacheEdit)) :
    let s := session json root disk steps
    (∀ found, openIndex json root s.disk = .ok found → found.Unique ∧
      ∃ before, before <+: steps ∧ (session json root disk before).current = .ok found.entries) ∧
    ((∃ e, openIndex json root s.disk = .error e) → ∃ before cache, before ++ [.save] <+: steps ∧
      (session json root disk before).current = .ok (entries cache) ∧
      ∃ e, (cache.save json root (session json root disk before).disk).1 = .error e) ∧
    ∀ before after cache, steps = before ++ .save :: after → .save ∉ after →
      (session json root disk before).current = .ok (entries cache) →
      (cache.save json root (session json root disk before).disk).1 = .ok () →
      (∀ middle maxBytes gone cache', middle ++ [.edit (.evictToFit maxBytes gone)] <+: after →
        (session json root disk (before ++ .save :: middle)).current = .ok (entries cache') →
        ∀ dir ∈ (cache'.evictToFit maxBytes).removedDirs,
          ¬ dir.locate disk.cwd <+: (indexPath root).locate disk.cwd) →
      openIndex json root s.disk = .ok cache := by
  have hopened : (keeper json root disk.cwd).load disk = .ok [] :=
    Keeper.load_absent (k := keeper json root disk.cwd) habsent
  have hfinds := Keeper.finds_run (k := keeper json root disk.cwd) (s := ⟨disk, _⟩) hopened habsent steps
  intro s
  refine ⟨fun found hfound => ?_, fun hfails => ?_, fun before after cache hsteps hlast hdoc hok hspared => ?_⟩
  · have hload := (openIndex_ok disk.cwd).mp hfound
    rcases hfinds with ⟨before, doc, hbefore, hdoc, hread⟩ | ⟨⟨e, he⟩, -⟩
    · obtain rfl := Except.ok.inj (hload.symm.trans hread)
      refine ⟨?_, before, hbefore, hdoc⟩
      exact Keeper.current_invariant (k := keeper json root disk.cwd) (P := fun doc => PackageCache.Unique ⟨doc⟩)
        List.Pairwise.nil (fun edit doc h => unique_step h edit.call) hopened habsent before hdoc
    · cases hload.symm.trans he
  · obtain ⟨e, he⟩ := reads_error.mp hfails
    rcases hfinds with ⟨_, _, _, _, hload⟩ | ⟨-, before, doc, hbefore, hdoc, hsave⟩
    · cases hload.symm.trans he
    · refine ⟨before, ⟨doc⟩, hbefore, hdoc, ?_⟩
      rw [save, session_cwd]
      exact hsave
  · refine (openIndex_ok disk.cwd).mpr ?_
    subst hsteps
    rw [save, session_cwd] at hok
    -- of the edits after the save only an eviction removes files, and it spared this one
    refine Keeper.load_of_saved hdoc hok hlast fun middle edit doc hmiddle hcurrent => ?_
    cases edit with
    | record entry => rfl
    | evictToFit maxBytes gone =>
      have hrun : session json root disk (before ++ .save :: middle) = (keeper json root disk.cwd).run
          (session json root disk (before ++ [.save])) middle := by
        simp only [session, Keeper.run, List.foldl_append, List.foldl_cons, List.foldl_nil]
      have hkept := hspared middle maxBytes gone ⟨doc⟩ hmiddle (by rw [hrun]; exact hcurrent)
      have hlocation : (keeper json root disk.cwd).location (session json root disk (before ++ [.save])).disk =
          (indexPath root).locate disk.cwd := congrArg (indexPath root).locate (session_cwd _)
      change removes disk.cwd (.evictToFit maxBytes gone) doc ((keeper json root disk.cwd).location
        (session json root disk (before ++ [.save])).disk) = false
      rw [hlocation, removes, Bool.and_eq_false_iff, List.any_eq_false]
      exact .inr fun dir hdir hprefix => hkept dir hdir (List.isPrefixOf_iff_prefix.mp hprefix)

def relayCached : CacheEntry := ⟨"relay", .new 1 0 0, .new "/srv/relay/1.0.0/package.nyp", 0, 5⟩

def cachedText : String := "[
  \x7b
    \"name\": \"relay\",
    \"version\": \"1.0.0\",
    \"path\": \"/srv/relay/1.0.0/package.nyp\",
    \"installed_at\": \"1970-01-01T00:00:00Z\",
    \"size_bytes\": 5
  \x7d
]"

def cachedJson : Format (List CacheEntry) Unit := .ofTexts [([], "[]"), ([relayCached], cachedText)] (by decide +kernel)

def cacheSteps : List (SessionStep CacheEdit) :=
  [.edit (.record relayCached), .save, .edit (.evictToFit 4 fun _ => true), .restart]

theorem cache_survives_killed :
    openIndex cachedJson (.new "/srv") (session cachedJson (.new "/srv") stubDisk cacheSteps).disk =
      .ok ⟨[relayCached]⟩ := by
  obtain ⟨-, -, hlast⟩ := @cache_survives Unit cachedJson (.new "/srv") stubDisk rfl cacheSteps
  refine hlast [.edit (.record relayCached)] _ ⟨[relayCached]⟩ rfl (by simp) rfl rfl ?_
  intro middle maxBytes gone cache hprefix hcache
  rcases middle with _ | ⟨step, middle⟩
  · obtain ⟨hstep, -⟩ := List.cons_prefix_cons.mp hprefix
    obtain ⟨rfl, rfl⟩ : maxBytes = 4 ∧ gone = fun _ => true := by simpa using hstep
    obtain rfl : (⟨[relayCached]⟩ : PackageCache) = cache := congrArg PackageCache.mk (Except.ok.inj hcache)
    decide
  · obtain ⟨rfl, hrest⟩ := List.cons_prefix_cons.mp hprefix
    rcases middle with _ | ⟨step, middle⟩ <;> simp at hrest

end PackageCache
end Nyarix
