import Nyarix.Lib.Fold
import Nyarix.Lib.Log
import Nyarix.Loader.Validation

/-! Rolling a package back to the version that was active before: one log of installs and rollbacks
of all packages, in which a rollback appends the version that it goes back to. -/

namespace Nyarix
open Semver (Version)

inductive HistoryKind where
  | installed | rolledBack
  deriving DecidableEq, Repr

structure HistoryEntry where
  name : String
  version : Version
  kind : HistoryKind
  recordedAt : Nat
  deriving DecidableEq

inductive RollbackError where
  | io (path : UnixPath) (source : IoError)
  | noActiveVersion (name : String)
  | noPreviousVersion (name : String)
  | missingArchive (name : String) (version : Version) (path : UnixPath)
  | package (error : PackageError)
  | incompatible (name : String) (version : Version) (conflicts : List Conflict)

structure RollbackHistory where
  entries : List HistoryEntry

namespace RollbackHistory

def new : RollbackHistory := ⟨[]⟩

def recordInstall (history : RollbackHistory) (now : Nat) (name : String) (version : Version) : RollbackHistory :=
  ⟨history.entries ++ [⟨name, version, .installed, now⟩]⟩

def recordRollback (history : RollbackHistory) (now : Nat) (name : String) (version : Version) : RollbackHistory :=
  ⟨history.entries ++ [⟨name, version, .rolledBack, now⟩]⟩

def activeVersion (history : RollbackHistory) (name : String) : Option Version :=
  (history.entries.reverse.find? (·.name = name)).map (·.version)

def previousVersion (history : RollbackHistory) (name : String) : Option Version :=
  (history.entries.reverse.filter (·.name = name))[1]?.map (·.version)

def versions (history : RollbackHistory) (name : String) : List Version :=
  Log.recent HistoryEntry.name HistoryEntry.version history.entries name

end RollbackHistory

/-- What a rollback finds around it: the checks of packages with their trust store and Module API
version, the files, the root of the installation and the index. -/
structure RollbackEnv where
  validating : Validating
  read : UnixPath → Except IoError ByteArray
  installRoot : UnixPath
  index : ModuleIndex

def archivePath (installRoot : UnixPath) (name : String) (version : Version) : UnixPath :=
  ((installRoot.join (.new name)).join (.new (toString version))).join (.new "package.nyp")

section Rollback
variable [LinearOrder Version]

def rollbackPackage (env : RollbackEnv) (now : Nat) (name : String) (history : RollbackHistory) :
    Except RollbackError Version × RollbackHistory :=
  if history.activeVersion name = none then (.error (.noActiveVersion name), history)
  else
    match history.previousVersion name with
    | none => (.error (.noPreviousVersion name), history)
    | some previous =>
      let path := archivePath env.installRoot name previous
      match env.read path with
      | .error source =>
        if source.kind = .notFound then (.error (.missingArchive name previous path), history)
        else (.error (.io path source), history)
      | .ok data =>
        match validatePackage env.validating data [] env.index with
        | .error e => (.error (.package e), history)
        | .ok report =>
          if report.isValid then (.ok previous, history.recordRollback now name previous)
          else (.error (.incompatible name previous report.conflicts), history)

inductive HistoryCall where
  | recordInstall (now : Nat) (name : String) (version : Version)
  | rollbackPackage (env : RollbackEnv) (now : Nat) (name : String)

def HistoryCall.name : HistoryCall → String
  | .recordInstall _ name _ => name
  | .rollbackPackage _ _ name => name

def RollbackHistory.step (history : RollbackHistory) : HistoryCall → RollbackHistory
  | .recordInstall now name version => history.recordInstall now name version
  | .rollbackPackage env now name => (Nyarix.rollbackPackage env now name history).2

end Rollback

namespace RollbackHistory
variable (history : RollbackHistory) (now : Nat) (name other : String) (version : Version)

theorem activeVersion_eq : history.activeVersion name = (history.versions name).head? :=
  Log.map_find?_reverse _ _ _ _

theorem previousVersion_eq : history.previousVersion name = (history.versions name)[1]? :=
  Log.map_getElem?_reverse _ _ _ _ _

theorem versions_recordInstall : (history.recordInstall now name version).versions other =
    if name = other then version :: history.versions other else history.versions other := Log.recent_concat _ _ _ _ _

theorem versions_recordRollback : (history.recordRollback now name version).versions other =
    if name = other then version :: history.versions other else history.versions other := Log.recent_concat _ _ _ _ _

end RollbackHistory

/-- What a successful rollback does: the active version and the previous one of the package change
places, by one entry more at the end of the log. -/
structure Swaps (name : String) (before : RollbackHistory) (version : Version) (after : RollbackHistory) : Prop where
  returned : before.previousVersion name = some version
  active : after.activeVersion name = before.previousVersion name
  previous : after.previousVersion name = before.activeVersion name
  appended : ∃ entry, after.entries = before.entries ++ [entry]
  others : ∀ other, other ≠ name → after.activeVersion other = before.activeVersion other ∧
    after.previousVersion other = before.previousVersion other

section Rollback
variable [LinearOrder Version] {env : RollbackEnv} {now : Nat} {name : String} {history : RollbackHistory}

theorem rollbackPackage_cases (env : RollbackEnv) (now : Nat) (name : String) (history : RollbackHistory) :
    (∃ error, rollbackPackage env now name history = (.error error, history)) ∨
    ∃ previous, history.previousVersion name = some previous ∧
      rollbackPackage env now name history = (.ok previous, history.recordRollback now name previous) := by
  unfold rollbackPackage
  split_ifs with hactive
  · exact .inl ⟨_, rfl⟩
  split
  · exact .inl ⟨_, rfl⟩
  · next previous hprevious =>
    dsimp only
    split
    · split_ifs
      · exact .inl ⟨_, rfl⟩
      · exact .inl ⟨_, rfl⟩
    · split
      · exact .inl ⟨_, rfl⟩
      · split_ifs
        · exact .inr ⟨previous, hprevious, rfl⟩
        · exact .inl ⟨_, rfl⟩

theorem rollbackPackage_error {error : RollbackError} {history' : RollbackHistory}
    (h : rollbackPackage env now name history = (.error error, history')) : history' = history := by
  rcases rollbackPackage_cases env now name history with ⟨_, hr⟩ | ⟨_, -, hr⟩ <;> rw [hr] at h
  · exact (Prod.mk.inj h).2.symm
  · cases (Prod.mk.inj h).1

theorem rollbackPackage_ok {version : Version} {history' : RollbackHistory}
    (h : rollbackPackage env now name history = (.ok version, history')) :
    history.previousVersion name = some version ∧ history' = history.recordRollback now name version := by
  rcases rollbackPackage_cases env now name history with ⟨_, hr⟩ | ⟨previous, hprevious, hr⟩ <;> rw [hr] at h
  · cases (Prod.mk.inj h).1
  · obtain rfl := Except.ok.inj (Prod.mk.inj h).1
    exact ⟨hprevious, (Prod.mk.inj h).2.symm⟩

theorem rollbackPackage_swaps {version : Version} {history' : RollbackHistory}
    (h : rollbackPackage env now name history = (.ok version, history')) : Swaps name history version history' := by
  obtain ⟨hprevious, rfl⟩ := rollbackPackage_ok h
  have hversions := history.versions_recordRollback now name name version
  rw [if_pos rfl] at hversions
  refine ⟨hprevious, ?_, ?_, ⟨_, rfl⟩, fun other hother => ?_⟩
  · rw [RollbackHistory.activeVersion_eq, hversions, hprevious]
    rfl
  · rw [RollbackHistory.previousVersion_eq, hversions, RollbackHistory.activeVersion_eq]
    rw [List.getElem?_cons_succ, List.head?_eq_getElem?]
  · have hrest := history.versions_recordRollback now name other version
    rw [if_neg hother.symm] at hrest
    simp only [RollbackHistory.activeVersion_eq, RollbackHistory.previousVersion_eq, hrest, and_self]

theorem versions_step {call : HistoryCall} (h : call.name ≠ name) (history : RollbackHistory) :
    (history.step call).versions name = history.versions name := by
  cases call with
  | recordInstall now other version =>
    exact (history.versions_recordInstall now other name version).trans (if_neg h)
  | rollbackPackage env now other =>
    change (rollbackPackage env now other history).2.versions name = history.versions name
    rcases rollbackPackage_cases env now other history with ⟨_, hr⟩ | ⟨previous, -, hr⟩ <;> rw [hr]
    exact (history.versions_recordRollback now other name previous).trans (if_neg h)

theorem versions_steps {calls : List HistoryCall} (h : ∀ call ∈ calls, call.name ≠ name) (history : RollbackHistory) :
    (calls.foldl RollbackHistory.step history).versions name = history.versions name := by
  induction calls generalizing history with
  | nil => rfl
  | cons call calls ih =>
    rw [List.forall_mem_cons] at h
    exact (ih h.2 _).trans (versions_step h.1 history)

def readyEnv : RollbackEnv where
  validating := ⟨stubChecking [], fun _ _ => true, .linux, .new, ⟨1, 0⟩⟩
  read _ := .ok ⟨#[0]⟩
  installRoot := .new "modules"
  index := .new

/-- Once two versions are recorded, a rollback in the right surroundings succeeds. -/
theorem rollbackPackage_ready {version : Version} (hprevious : history.previousVersion name = some version) :
    rollbackPackage readyEnv now name history = (.ok version, history.recordRollback now name version) := by
  have hactive : history.activeVersion name ≠ none := by
    rw [RollbackHistory.previousVersion_eq] at hprevious
    rw [RollbackHistory.activeVersion_eq]
    intro hnone
    rw [List.head?_eq_none_iff.mp hnone] at hprevious
    cases hprevious
  unfold rollbackPackage
  rw [if_neg hactive, hprevious]
  rfl

/-- A rollback swaps the active version and the previous one of its package, and only these; one that
fails changes nothing; and a second one swaps them back, whatever was done to other packages between. -/
theorem rollback_involution (name : String) (history : RollbackHistory) :
    (∀ env now version history', rollbackPackage env now name history = (.ok version, history') →
      Swaps name history version history') ∧
    (∀ env now error history', rollbackPackage env now name history = (.error error, history') →
      history' = history) ∧
    ∀ env env' now now' version version' history₁ history₂ (between : List HistoryCall),
      (∀ call ∈ between, call.name ≠ name) → rollbackPackage env now name history = (.ok version, history₁) →
      rollbackPackage env' now' name (between.foldl RollbackHistory.step history₁) = (.ok version', history₂) →
      history₂.activeVersion name = history.activeVersion name ∧
        history₂.previousVersion name = history.previousVersion name := by
  refine ⟨fun _ _ _ _ h => rollbackPackage_swaps h, fun _ _ _ _ h => rollbackPackage_error h, ?_⟩
  intro env env' now now' version version' history₁ history₂ between hothers h h'
  have hswap := rollbackPackage_swaps h
  have hswap' := rollbackPackage_swaps h'
  have hbetween := versions_steps hothers history₁
  constructor
  · rw [hswap'.active, RollbackHistory.previousVersion_eq, hbetween, ← RollbackHistory.previousVersion_eq, hswap.previous]
  · rw [hswap'.previous, RollbackHistory.activeVersion_eq, hbetween, ← RollbackHistory.activeVersion_eq, hswap.active]

omit [LinearOrder Version] in
theorem rollback_involution_twice : letI := Version.numericOrder
    let history := (RollbackHistory.new.recordInstall 0 "relay" (.new 1 0 0)).recordInstall 1 "relay" (.new 2 0 0)
    ∃ history₁ history₂, rollbackPackage readyEnv 2 "relay" history = (.ok (.new 1 0 0), history₁) ∧
      rollbackPackage readyEnv 4 "relay" (history₁.recordInstall 3 "quic" (.new 1 0 0)) = (.ok (.new 2 0 0), history₂) ∧
      history₂.activeVersion "relay" = some (.new 2 0 0) ∧ history₂.previousVersion "relay" = some (.new 1 0 0) := by
  let _ := Version.numericOrder
  intro history
  have hfirst : rollbackPackage readyEnv 2 "relay" history =
      (.ok (.new 1 0 0), history.recordRollback 2 "relay" (.new 1 0 0)) := rollbackPackage_ready rfl
  obtain ⟨history₂, hsecond⟩ : ∃ history₂, rollbackPackage readyEnv 4 "relay"
      ((history.recordRollback 2 "relay" (.new 1 0 0)).recordInstall 3 "quic" (.new 1 0 0)) =
        (.ok (.new 2 0 0), history₂) := ⟨_, rollbackPackage_ready rfl⟩
  have hothers : ∀ call ∈ [HistoryCall.recordInstall 3 "quic" (.new 1 0 0)], call.name ≠ "relay" := by
    intro call hcall
    rw [List.mem_singleton.mp hcall]
    decide
  obtain ⟨hactive, hprevious⟩ := (rollback_involution "relay" history).2.2 readyEnv readyEnv 2 4 _ _ _ _ _ hothers
    hfirst hsecond
  exact ⟨_, history₂, hfirst, hsecond, hactive, hprevious⟩

def Alternates (history : RollbackHistory) : Prop :=
  ∀ name version, history.activeVersion name = some version → history.previousVersion name ≠ some version

/-- A rollback changes the active version, and there is none while one version is all that was recorded. -/
def GoesBack (history : RollbackHistory) : Prop :=
  ∀ env now name,
    (∀ version history', rollbackPackage env now name history = (.ok version, history') →
      history'.activeVersion name ≠ history.activeVersion name) ∧
    ∀ version, history.activeVersion name = some version →
      (∀ entry ∈ history.entries, entry.name = name → entry.version = version) →
      rollbackPackage env now name history = (.error (.noPreviousVersion name), history)

def InstallsOther (history : RollbackHistory) : HistoryCall → Prop
  | .recordInstall _ name version => history.activeVersion name ≠ some version
  | .rollbackPackage .. => True

theorem goesBack_iff (history : RollbackHistory) : GoesBack history ↔ Alternates history := by
  constructor
  · intro h name version hactive hprevious
    refine (h readyEnv 0 name).1 version _ (rollbackPackage_ready hprevious) ?_
    rw [(rollbackPackage_swaps (rollbackPackage_ready hprevious)).active, hprevious, hactive]
  · refine fun h env now name => ⟨fun version history' hok => ?_, fun version hactive hsame => ?_⟩
    · have hswap := rollbackPackage_swaps hok
      rw [hswap.active, hswap.returned]
      exact fun heq => h name version heq.symm hswap.returned
    · -- all versions recorded are the active one, so there is no second
      have hnone : history.previousVersion name = none := by
        rw [RollbackHistory.previousVersion_eq]
        refine Option.eq_none_iff_forall_ne_some.mpr fun other hother => ?_
        obtain ⟨entry, hentry, hname, hversion⟩ := (Log.mem_recent _ _).mp (List.mem_of_getElem? hother)
        refine h name version hactive ?_
        rw [RollbackHistory.previousVersion_eq, hother, ← hversion, hsame entry hentry hname]
      unfold rollbackPackage
      rw [if_neg (by rw [hactive]; exact Option.some_ne_none version), hnone]

omit [LinearOrder Version] in
theorem alternates_push_iff (h : Alternates history) {after : RollbackHistory} {version : Version}
    (hversions : ∀ other, after.versions other =
      if name = other then version :: history.versions other else history.versions other) :
    Alternates after ↔ history.activeVersion name ≠ some version := by
  constructor
  · intro hafter hactive
    have hname := hversions name
    rw [if_pos rfl] at hname
    refine hafter name version ?_ ?_
    · rw [RollbackHistory.activeVersion_eq, hname]
      rfl
    · rw [RollbackHistory.previousVersion_eq, hname, List.getElem?_cons_succ, ← List.head?_eq_getElem?,
        ← RollbackHistory.activeVersion_eq, hactive]
  · intro hnew other version' hactive hprevious
    have hother := hversions other
    rw [RollbackHistory.activeVersion_eq, hother] at hactive
    rw [RollbackHistory.previousVersion_eq, hother] at hprevious
    split_ifs at hactive hprevious with hname
    · obtain rfl : version = version' := Option.some.inj hactive
      rw [List.getElem?_cons_succ, ← List.head?_eq_getElem?, ← RollbackHistory.activeVersion_eq] at hprevious
      exact hnew (hname ▸ hprevious)
    · rw [← RollbackHistory.activeVersion_eq] at hactive
      rw [← RollbackHistory.previousVersion_eq] at hprevious
      exact h other version' hactive hprevious

theorem alternates_step_iff (h : Alternates history) (call : HistoryCall) :
    Alternates (history.step call) ↔ InstallsOther history call := by
  cases call with
  | recordInstall now name version =>
    exact alternates_push_iff h fun other => history.versions_recordInstall now name other version
  | rollbackPackage env now name =>
    refine iff_of_true ?_ trivial
    change Alternates (rollbackPackage env now name history).2
    rcases rollbackPackage_cases env now name history with ⟨_, hr⟩ | ⟨previous, hprevious, hr⟩ <;> rw [hr]
    · exact h
    · exact (alternates_push_iff h fun other => history.versions_recordRollback now name other previous).mpr
        fun hactive => h name previous hactive hprevious

/-- In every state of a run rollbacks go back to another version exactly if every install of the run
records another version than the one active for its package. -/
theorem rollback_goes_back_iff (calls : List HistoryCall) :
    Fold.Throughout RollbackHistory.step GoesBack .new calls ↔
      Fold.Along RollbackHistory.step InstallsOther .new calls := by
  have hnew : GoesBack .new := (goesBack_iff .new).mpr fun name version h => by cases h
  refine Fold.throughout_iff_along (I := fun _ => True) (P := GoesBack) (fun _ _ _ => trivial)
    (fun history call _ h => ?_) trivial hnew calls
  rw [goesBack_iff, alternates_step_iff ((goesBack_iff history).mp h)]

end Rollback

theorem reinstalled_version_rolled_back_to : letI := Version.numericOrder
    ¬ GoesBack ([.recordInstall 0 "relay" (.new 1 0 0), .recordInstall 1 "relay" (.new 1 0 0)].foldl
      RollbackHistory.step .new) := by
  let _ := Version.numericOrder
  intro h
  exact (h readyEnv 2 "relay").1 (.new 1 0 0) _ (rollbackPackage_ready rfl) rfl

end Nyarix
